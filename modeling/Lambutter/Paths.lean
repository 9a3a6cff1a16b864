/-
Paths: their components, and walking one after another.

The components of a path are its runs between slashes without the single dots
(`components_of_runs`).  Cut before a slash, a path is walked by walking the two parts
one after the other, whatever the reader does (`resolvePath_append`), and fillers
between two components change nothing.
-/
import Lambutter.Listing
import Lambutter.Runs

open Splitting

namespace Components

theorem next_slash (n : ℕ) (l : List UInt8) : next n (slash :: l) = next n l := by
  cases n with
  | zero => rfl
  | succ n => rfl

/-- A component, and the bytes after it. -/
theorem next_run {r l : List UInt8} (hne : r ≠ []) (hfree : slash ∉ r) (hmax : Stops slash l)
    (n : ℕ) : next (n + 1) (r ++ l) = if r = [dot] then next n l else some (r, l) := by
  obtain ⟨a, r, rfl⟩ := List.exists_cons_of_ne_nil hne
  have ha : ¬ (a == slash) = true := by
    intro h
    exact hfree (List.mem_cons.mpr (.inl (eq_of_beq h).symm))
  have hall : ∀ b ∈ a :: r, (b != slash) = true := by
    intro b hb
    exact bne_iff_ne.mpr fun h => hfree (h ▸ hb)
  have hdrop : ((a :: r) ++ l).dropWhile (· == slash) = (a :: r) ++ l :=
    List.dropWhile_cons_of_neg ha
  have htake : ((a :: r) ++ l).takeWhile (· != slash) = a :: r := by
    rw [List.takeWhile_append_of_pos hall]
    cases l with
    | nil => exact List.append_nil _
    | cons b l =>
      rw [hmax b rfl, List.takeWhile_cons_of_neg (by decide), List.append_nil]
  have hrest : ((a :: r) ++ l).dropWhile (· != slash) = l := by
    rw [List.dropWhile_append_of_pos hall]
    cases l with
    | nil => rfl
    | cons b l => rw [hmax b rfl, List.dropWhile_cons_of_neg (by decide)]
  rw [next, hdrop, htake, hrest]
  rfl

/-- The next component is the first run that is no single dot; with enough fuel. -/
theorem next_of_runs {l : List UInt8} {rs : List (List UInt8)} (h : Runs slash l rs) {n : ℕ}
    (hn : l.length < n) :
    rs.filter (· ≠ [dot]) = [] ∧ next n l = none ∨
    ∃ c rest rs', rs.filter (· ≠ [dot]) = c :: rs'.filter (· ≠ [dot]) ∧
      next n l = some (c, rest) ∧ Runs slash rest rs' ∧ rest.length < l.length := by
  -- on the runs: a separator and a single dot are skipped, any other run is the component
  induction h generalizing n with
  | nil =>
    refine .inl ⟨rfl, ?_⟩
    obtain ⟨n, rfl⟩ := Nat.exists_eq_succ_of_ne_zero (Nat.ne_of_gt hn)
    rfl
  | @sep l rs h ih =>
    rw [next_slash]
    rw [List.length_cons] at hn
    rcases ih (by omega : l.length < n) with hnone | ⟨c, rest, rs', hcut, hnext, hrest, hlt⟩
    · exact .inl hnone
    · exact .inr ⟨c, rest, rs', hcut, hnext, hrest, hlt.trans (Nat.lt_succ_self _)⟩
  | @run r l rs hne hfree hmax h ih =>
    have hpos : 0 < r.length := List.length_pos_iff.mpr hne
    rw [List.length_append] at hn
    obtain ⟨n, rfl⟩ := Nat.exists_eq_succ_of_ne_zero (by omega : n ≠ 0)
    rw [next_run hne hfree hmax]
    by_cases hdot : r = [dot]
    · rw [if_pos hdot, List.filter_cons_of_neg (by simpa using hdot)]
      rcases ih (by omega : l.length < n) with hnone | ⟨c, rest, rs', hcut, hnext, hrest, hlt⟩
      · exact .inl hnone
      · refine .inr ⟨c, rest, rs', hcut, hnext, hrest, ?_⟩
        rw [List.length_append]
        omega
    · rw [if_neg hdot, List.filter_cons_of_pos (by simpa using hdot)]
      refine .inr ⟨r, l, rs, rfl, rfl, h, ?_⟩
      rw [List.length_append]
      omega

theorem collect_of_runs {l : List UInt8} {rs : List (List UInt8)} (h : Runs slash l rs) {n : ℕ}
    (hn : l.length < n) : collect n l = rs.filter (· ≠ [dot]) := by
  induction n generalizing l rs with
  | zero => omega
  | succ n ih =>
    rw [collect]
    rcases next_of_runs h (Nat.lt_succ_self l.length) with ⟨hnil, hnone⟩ |
      ⟨c, rest, rs', hcut, hnext, hrest, hlt⟩
    · rw [hnone, hnil]
    · rw [hnext, hcut]
      exact congrArg _ (ih hrest (by omega))

end Components

/-- The components of a path are its runs between slashes, single dots left out. -/
theorem Btrfs.Path.components_of_runs {path : Btrfs.Path} {rs : List (List UInt8)}
    (h : Runs slash path.bytes rs) : path.components = rs.filter (· ≠ [dot]) :=
  Components.collect_of_runs h (Nat.lt_succ_self _)

/-- Cut before a slash, a path has the components of both parts. -/
theorem Btrfs.Path.components_append (a : List UInt8) {b : List UInt8} (hb : Stops slash b) :
    (Path.mk (a ++ b)).components = (Path.mk a).components ++ (Path.mk b).components := by
  obtain ⟨as, ha⟩ := Runs.exists slash a
  obtain ⟨bs, hbs⟩ := Runs.exists slash b
  rw [@components_of_runs ⟨a ++ b⟩ _ (ha.append hbs hb), @components_of_runs ⟨a⟩ _ ha,
    @components_of_runs ⟨b⟩ _ hbs, List.filter_append]

/-- Slashes and single dots between components. -/
def Filler (s : List UInt8) : Prop := s = [slash] ∨ s = [slash, dot]

theorem Filler.stops {s : List UInt8} (h : Filler s) : Stops slash s := by
  rcases h with rfl | rfl
  · exact stops_cons _
  · exact stops_cons _

theorem fillers_stop {fillers : List (List UInt8)} (h : ∀ s ∈ fillers, Filler s) :
    Stops slash fillers.flatten := by
  induction fillers with
  | nil => exact fun _ ha => nomatch ha
  | cons s rest ih =>
    rw [List.flatten_cons]
    exact (h s List.mem_cons_self).stops.append (ih fun s' hs => h s' (List.mem_cons_of_mem _ hs))

theorem components_fillers {fillers : List (List UInt8)} (h : ∀ s ∈ fillers, Filler s) :
    (Btrfs.Path.mk fillers.flatten).components = [] := by
  induction fillers with
  | nil => rfl
  | cons s rest ih =>
    have hrest : ∀ s' ∈ rest, Filler s' := fun s' hs => h s' (List.mem_cons_of_mem _ hs)
    have hs : (Btrfs.Path.mk s).components = [] := by
      rcases h s List.mem_cons_self with rfl | rfl
      · rfl
      · rfl
    rw [List.flatten_cons, Btrfs.Path.components_append s (fillers_stop hrest), hs, ih hrest]
    rfl

section Walks

variable (env : Env) (trees : Trees)

/-- The rest of a path is walked from where its beginning leads, for every reader. -/
theorem resolvePath_append (start : Inode) (a : List UInt8) {b : List UInt8}
    (hb : Stops slash b) :
    resolvePath env trees start ⟨a ++ b⟩ =
      resolvePath env trees start ⟨a⟩ >>= fun mid => resolvePath env trees mid ⟨b⟩ := by
  unfold resolvePath
  rw [Btrfs.Path.components_append a hb, List.foldlM_append]

/-- Fillers at the end of a component lead nowhere else. -/
theorem resolvePath_fillers (start : Inode) (a : List UInt8) {b : List UInt8}
    (hb : Stops slash b) {fillers : List (List UInt8)} (h : ∀ s ∈ fillers, Filler s) :
    resolvePath env trees start ⟨a ++ fillers.flatten ++ b⟩ =
      resolvePath env trees start ⟨a ++ b⟩ := by
  unfold resolvePath
  rw [Btrfs.Path.components_append _ hb, Btrfs.Path.components_append a (fillers_stop h),
    components_fillers h, List.append_nil, Btrfs.Path.components_append a hb]

/-- Splitting and walking compose: the components of a path are its runs but the single
dots; two paths joined are walked one after the other, with the error of the first that
fails; and fillers change nothing. -/
theorem paths_compose :
    (∀ path bytes, Btrfs.Path.new bytes = some path → ∃ rs, Runs slash bytes rs ∧
      (∀ rs', Runs slash bytes rs' → rs' = rs) ∧ path.components = rs.filter (· ≠ [dot])) ∧
    (∀ a b p q, Btrfs.Path.new a = some p → Btrfs.Path.new b = some q →
      ∃ joined, Btrfs.Path.new (a ++ b) = some joined ∧ ∀ start,
        resolvePath env trees start joined =
          (resolvePath env trees start p >>= fun mid => resolvePath env trees mid q) ∧
        ∀ g, (resolvePath env trees start joined).run g =
          match (resolvePath env trees start p).run g with
          | .ok mid => (resolvePath env trees mid q).run g
          | .error x => .error x) ∧
    ∀ (a b : List UInt8) (fillers : List (List UInt8)), b = [] ∨ b.head? = some slash →
      (∀ s ∈ fillers, Filler s) → ∀ start,
      resolvePath env trees start ⟨a ++ fillers.flatten ++ b⟩ =
        resolvePath env trees start ⟨a ++ b⟩ := by
  -- a path that was accepted is its bytes, and they begin with a slash
  have hnew : ∀ bytes path, Btrfs.Path.new bytes = some path →
      path = ⟨bytes⟩ ∧ bytes.head? = some slash := by
    intro bytes path h
    unfold Btrfs.Path.new at h
    split_ifs at h with hhead
    cases h
    exact ⟨rfl, not_not.mp hhead⟩
  have hstops : ∀ b : List UInt8, b.head? = some slash → Stops slash b := by
    intro b hb a ha
    exact Option.some.inj (ha.symm.trans hb)
  refine ⟨fun path bytes hpath => ?_, fun a b p q hp hq => ?_, fun a b fillers hb hfill start => ?_⟩
  · obtain ⟨rfl, -⟩ := hnew bytes path hpath
    obtain ⟨rs, hrs⟩ := Runs.exists slash bytes
    exact ⟨rs, hrs, fun rs' h => h.unique hrs, Btrfs.Path.components_of_runs hrs⟩
  · obtain ⟨rfl, ha⟩ := hnew a p hp
    obtain ⟨rfl, hb⟩ := hnew b q hq
    refine ⟨⟨a ++ b⟩, ?_, fun start => ?_⟩
    · unfold Btrfs.Path.new
      rw [if_neg]
      rw [not_not, List.head?_append, ha]
      rfl
    · have hprog := resolvePath_append env trees start a (hstops b hb)
      refine ⟨hprog, fun g => ?_⟩
      rw [hprog, Prog.run_bind]
      cases (resolvePath env trees start ⟨a⟩).run g with
      | ok mid => rfl
      | error x => rfl
  · refine resolvePath_fillers env trees start a ?_ hfill
    rcases hb with rfl | hb
    · exact fun _ ha => nomatch ha
    · exact hstops b hb

end Walks

/-- `/s/.//x`, from the top of the sample directories: its components, `/s` and then
`/.//x`, and `/s/x`. -/
theorem paths_compose_sample :
    Btrfs.Path.components ⟨[47, 115, 47, 46, 47, 47, 120]⟩ = [[115], [120]] ∧
    resolvePath referenceEnv sampleTrees topDir ⟨[47, 115, 47, 46, 47, 47, 120]⟩ =
      (resolvePath referenceEnv sampleTrees topDir ⟨[47, 115]⟩ >>= fun mid =>
        resolvePath referenceEnv sampleTrees mid ⟨[47, 46, 47, 47, 120]⟩) ∧
    resolvePath referenceEnv sampleTrees topDir ⟨[47, 115, 47, 46, 47, 47, 120]⟩ =
      resolvePath referenceEnv sampleTrees topDir ⟨[47, 115, 47, 120]⟩ := by
  obtain ⟨hcomponents, hjoined, hfillers⟩ := paths_compose referenceEnv sampleTrees
  refine ⟨?_, ?_, ?_⟩
  · obtain ⟨rs, -, hunique, hrs⟩ := hcomponents _ [47, 115, 47, 46, 47, 47, 120] rfl
    have hlast : Runs slash [120] [[120]] :=
      .run (r := [120]) (List.cons_ne_nil _ _) (by decide) nofun .nil
    have hdot : Runs slash [46, 47, 47, 120] [[46], [120]] :=
      .run (r := [46]) (List.cons_ne_nil _ _) (by decide) (stops_cons _) (.sep (.sep hlast))
    have hruns : Runs slash [47, 115, 47, 46, 47, 47, 120] [[115], [46], [120]] :=
      .sep (.run (r := [115]) (List.cons_ne_nil _ _) (by decide) (stops_cons _) (.sep hdot))
    rw [hrs, ← hunique _ hruns]
    decide
  · obtain ⟨joined, hnew, hresolve⟩ := hjoined [47, 115] [47, 46, 47, 47, 120] _ _ rfl rfl
    cases hnew
    exact (hresolve topDir).1
  · have hfill : ∀ s ∈ ([[47, 46], [47]] : List (List UInt8)), Filler s := by
      intro s hs
      rcases List.mem_cons.mp hs with rfl | hs
      · exact .inr rfl
      · exact .inl (List.mem_singleton.mp hs)
    exact hfillers [47, 115] [47, 120] _ (.inr rfl) hfill topDir
