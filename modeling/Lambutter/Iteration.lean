/-
Iteration over a tree, on every image.

The four loops that go through a tree end and never come back: the keys they take
ascend strictly, and no address is gone through twice (`iteration_spec`).  Blocks
could differ from one reading to the next only if the chunk map changed what their
addresses mean; the walk over the chunk tree extends the map it reads through, and
extending it keeps every address that it resolves (`Keeps`).
-/
import Lambutter.Btrfs

/-! ### What an extended map keeps -/

/-- Every address that `map` resolves, `map'` resolves to the same place. -/
def Keeps (env : Env) (map map' : ChunkMap) : Prop :=
  ∀ l r, map.resolve env l = .ok r → map'.resolve env l = .ok r

namespace Keeps

variable {env : Env} {map map' map'' : ChunkMap}

theorem refl (map : ChunkMap) : Keeps env map map := fun _ _ h => h

theorem trans (h : Keeps env map map') (h' : Keeps env map' map'') : Keeps env map map'' :=
  fun l r hr => h' l r (h l r hr)

theorem insert (map : ChunkMap) (m : ChunkMapping) : Keeps env map (map.insert m).2 := by
  intro l r hr
  obtain ⟨x, hx, hcov, -⟩ := ChunkMap.resolve_eq_ok hr
  rw [ChunkMap.resolve_insert_of_covers env hx hcov m]
  exact hr

variable (g : (q : ReadReq) → Ans q)

/-- What can be read through a map can be read through one that keeps it. -/
theorem run_fetch (h : Keeps env map map') {io : ℕ → Error} {n len cursor : ℕ} {bs : List UInt8}
    (hbs : (fetch env map io n len cursor).run g = .ok bs) :
    (fetch env map' io n len cursor).run g = .ok bs := by
  induction n generalizing len cursor bs with
  | zero => exact absurd hbs fault_ne_ok
  | succ n ih =>
    rw [fetch] at hbs ⊢
    split_ifs at hbs ⊢ with hlen
    · rw [Prog.run_bind, Prog.run_liftM] at hbs ⊢
      obtain ⟨r, hr, hbs⟩ := Except.bind_eq_ok.mp hbs
      rw [h _ _ hr, Except.ok_bind]
      rw [Prog.run_bind] at hbs ⊢
      obtain ⟨bytes, hbytes, hbs⟩ := Except.bind_eq_ok.mp hbs
      rw [hbytes, Except.ok_bind]
      rw [Prog.run_bind] at hbs ⊢
      obtain ⟨rest, hrest, hbs⟩ := Except.bind_eq_ok.mp hbs
      rw [ih hrest]
      exact hbs
    · exact hbs

end Keeps

/-- Taking an item of the chunk tree in keeps what the map resolves. -/
theorem keeps_harvest {env : Env} {leaf : TreeBlock} {item : LeafItem} {map map' : ChunkMap}
    (h : harvest env leaf item map = .ok map') : Keeps env map map' := by
  unfold harvest at h
  by_cases hty : item.key.itemType = chunkItemKey
  · rw [if_pos hty] at h
    obtain ⟨data, -, h⟩ := Except.bind_eq_ok.mp h
    obtain ⟨parsed, -, h⟩ := Except.bind_eq_ok.mp h
    obtain ⟨chunk, -, h⟩ := Except.bind_eq_ok.mp h
    dsimp only at h
    by_cases htrunc : data.length < ChunkItem.totalSize chunk.numStripes
    · rw [if_pos htrunc] at h
      exact absurd h err_ne_ok
    · rw [if_neg htrunc] at h
      obtain ⟨stripes, -, h⟩ := Except.bind_eq_ok.mp h
      by_cases hknown : map.contains item.key.offset = true
      · rw [if_pos hknown] at h
        cases h
        exact Keeps.refl map
      · rw [if_neg hknown] at h
        obtain ⟨-, -, h⟩ := Except.bind_eq_ok.mp h
        cases h
        exact Keeps.insert map _
  · rw [if_neg hty] at h
    cases h
    exact Keeps.refl map

theorem Keeps.readsBlock {env : Env} (h64 : env.usizeBits = 64) {map map' : ChunkMap}
    {nodesize : ℕ} (hnode : ValidNodesize nodesize) (g : (q : ReadReq) → Ans q)
    (h : Keeps env map map') {l : ℕ} {b : TreeBlock} (hb : blockAt env map nodesize g l = .ok b) :
    blockAt env map' nodesize g l = .ok b := by
  have hmax : nodesize ≤ 65536 := hnode.2
  unfold blockAt readTreeBlock at hb ⊢
  rw [Prog.run_bind, run_note_event, Except.ok_bind, readBody_eq (by rw [h64]; omega),
    Prog.run_bind]
    at hb ⊢
  obtain ⟨body, hbody, hb⟩ := Except.bind_eq_ok.mp hb
  rw [h.run_fetch g hbody]
  exact hb

/-! ### The leaf that a search ends in -/

section Found

variable {env : Env} {map : ChunkMap} {nodesize : ℕ} {g : (q : ReadReq) → Ans q}

theorem descendToLeaf_loop_read {target : DiskKey} {n : ℕ} {b : TreeBlock}
    {nextKey : Option DiskKey} {depth : ℕ} {r : TreeBlock × Option DiskKey}
    (hb : ∃ l, blockAt env map nodesize g l = .ok b)
    (hr : (descendToLeaf.loop env map nodesize target n b nextKey depth).run g = .ok r) :
    ∃ l, blockAt env map nodesize g l = .ok r.1 := by
  induction n generalizing b nextKey depth with
  | zero => exact absurd hr fault_ne_ok
  | succ n ih =>
    rw [descendToLeaf.loop] at hr
    by_cases hl : 0 < b.header.level
    · rw [if_pos hl] at hr
      dsimp only at hr
      by_cases hd : maxTreeDepth < min (depth + 1) 255
      · rw [if_pos hd] at hr
        exact absurd hr err_ne_ok
      by_cases hn : b.header.nritems = 0
      · rw [if_neg hd, if_pos hn] at hr
        exact absurd hr err_ne_ok
      rw [if_neg hd, if_neg hn] at hr
      obtain ⟨childIdx, -, hr⟩ := (Prog.run_bind_eq_ok g).mp hr
      obtain ⟨nextIdx, -, hr⟩ := (Prog.run_bind_eq_ok g).mp hr
      obtain ⟨nextKey', -, hr⟩ := (Prog.run_bind_eq_ok g).mp hr
      obtain ⟨kp, -, hr⟩ := (Prog.run_bind_eq_ok g).mp hr
      obtain ⟨child, hchild, hr⟩ := (Prog.run_bind_eq_ok g).mp hr
      exact ih ⟨kp.blockptr, hchild⟩ hr
    · rw [if_neg hl] at hr
      cases hr
      exact hb

theorem descendToLeaf_read {root : ℕ} {target : DiskKey} {r : TreeBlock × Option DiskKey}
    (hr : (descendToLeaf env map nodesize root target).run g = .ok r) :
    ∃ l, blockAt env map nodesize g l = .ok r.1 := by
  obtain ⟨b, hb, hr⟩ := (Prog.run_bind_eq_ok g).mp hr
  exact descendToLeaf_loop_read ⟨root, hb⟩ hr

/-- The leaf that a search returns has been read from its own address. -/
theorem findFirstGe_read (h64 : env.usizeBits = 64) (hnode : ValidNodesize nodesize) {root : ℕ}
    {target : DiskKey} {leaf : TreeBlock} {i : ℕ}
    (hr : (findFirstGe env map nodesize root target).run g = .ok (some (leaf, i))) :
    blockAt env map nodesize g leaf.header.bytenr = .ok leaf := by
  suffices h : ∃ l, blockAt env map nodesize g l = .ok leaf by
    obtain ⟨l, hl⟩ := h
    rwa [(blockAt_accepted h64 hnode g l leaf hl).2]
  obtain ⟨⟨first, nextKey⟩, hfirst, hr⟩ := (Prog.run_bind_eq_ok g).mp hr
  obtain ⟨found, -, hr⟩ := (Prog.run_bind_eq_ok g).mp hr
  cases found with
  | some idx =>
    cases hr
    exact descendToLeaf_read hfirst
  | none =>
    cases nextKey with
    | none => cases hr
    | some nextKey =>
      obtain ⟨⟨next, _⟩, hnext, hr⟩ := (Prog.run_bind_eq_ok g).mp hr
      obtain ⟨past, -, hr⟩ := (Prog.run_bind_eq_ok g).mp hr
      cases past with
      | true =>
        cases hr
        exact descendToLeaf_read hnext
      | false => exact absurd hr err_ne_ok

end Found

/-! ### The leaves of a walk -/

namespace Walk

variable {σ : Type} {env : Env} {w : Walk σ} {g : (q : ReadReq) → Ans q}

/-- The state a loop goes on or leaves with. -/
def stateOf : Pace σ → σ
  | .more s _ => s
  | .leave s => s

/-- The body keeps what the map resolves. -/
def Growing (env : Env) (w : Walk σ) (g : (q : ReadReq) → Ans q) : Prop :=
  ∀ block item s p, (w.item block item s).run g = .ok p →
    Keeps env (w.chunkMap s) (w.chunkMap (stateOf p))

theorem leaf_keeps (hgrow : w.Growing env g) {block : TreeBlock} {n idx : ℕ} {s : σ}
    {next : Option DiskKey} {p : Pace σ} (h : (w.leaf env block n idx s next).run g = .ok p) :
    Keeps env (w.chunkMap s) (w.chunkMap (stateOf p)) := by
  induction n generalizing idx s next with
  | zero =>
    cases h
    exact Keeps.refl _
  | succ n ih =>
    rw [leaf] at h
    obtain ⟨item, -, h⟩ := (Prog.run_bind_eq_ok g).mp h
    obtain ⟨-, -, h⟩ := (Prog.run_bind_eq_ok g).mp h
    obtain ⟨p', hp', h⟩ := (Prog.run_bind_eq_ok g).mp h
    have hkeep := hgrow block item s p' hp'
    cases p' with
    | leave s' =>
      cases h
      exact hkeep
    | more s' next' =>
      obtain ⟨idx', -, h⟩ := (Prog.run_bind_eq_ok g).mp h
      exact hkeep.trans (ih h)

/-- The addresses of the leaves gone through, in order. -/
def addresses (t : List Event) : List ℕ := (leavesOf t).map fun block => block.header.bytenr

variable {S : Stop → Prop} {Inv Fin : σ → Prop}

/-- The leaves of one pass and of the passes after it. -/
theorem leavesOf_run (h64 : env.usizeBits = 64) (hnode : ValidNodesize w.nodesize)
    (hg : w.Good S Inv Fin) (fuel : ℕ) (target : DiskKey) {s : σ} (hs : Inv s) :
    leavesOf (Prog.trace g (w.run env (fuel + 1) target s)) = [] ∨
    ∃ block idx, (findFirstGe env (w.chunkMap s) w.nodesize w.root target).run g =
        .ok (some (block, idx)) ∧
      (leavesOf (Prog.trace g (w.run env (fuel + 1) target s)) = [block] ∨
      ∃ s' target', Inv s' ∧
        (w.leaf env block (block.header.nritems - idx) idx s none).run g =
          .ok (.more s' (some target')) ∧
        leavesOf (Prog.trace g (w.run env (fuel + 1) target s)) =
          block :: leavesOf (Prog.trace g (w.run env fuel target' s'))) := by
  rw [run]
  by_cases hproceed : w.proceed s = true
  swap
  · rw [if_neg hproceed]
    exact .inl rfl
  rw [if_pos hproceed, Prog.trace_bind, leavesOf_append, leavesOf_inner (fun e he =>
    ((findFirstGe_notes _ _).sat.run g e he).perItem), List.nil_append]
  cases hfind : (findFirstGe env (w.chunkMap s) w.nodesize w.root target).run g with
  | error x => exact .inl rfl
  | ok found =>
    rcases found with _ | ⟨block, idx⟩
    · exact .inl rfl
    have hfirst := run_findFirstGe_first h64 hnode w.root g hfind
    -- within a leaf no other leaf is noted, so the trace is this leaf and what comes after
    have hleaf := (leaf_sat h64 hg hfirst.accepted hfirst.level (block.header.nritems - idx) idx
      (by have := hfirst.lt; omega) s hs none).run g
    refine .inr ⟨block, idx, rfl, ?_⟩
    dsimp only
    rw [Prog.trace_bind, trace_note_event, run_note_event]
    dsimp only
    rw [Prog.trace_bind, List.singleton_append]
    have hcons : ∀ t t' : List Event, leavesOf t = [] →
        leavesOf (.leaf block :: (t ++ t')) = block :: leavesOf t' := by
      intro t t' ht
      show block :: leavesOf (t ++ t') = _
      rw [leavesOf_append, ht, List.nil_append]
    rw [hcons _ _ hleaf.2.1]
    -- only a leaf that was gone through to its end leads to another pass
    cases hrun : (w.leaf env block (block.header.nritems - idx) idx s none).run g with
    | error x => exact .inl rfl
    | ok p =>
      rcases p with ⟨s', _ | target'⟩ | s'
      · exact .inl rfl
      · have hafter := hleaf.2.2
        rw [hrun] at hafter
        exact .inr ⟨s', target', hafter.1, rfl, rfl⟩
      · exact .inl rfl

/-- Every leaf of a run is what stands at its address for a map that the first one
keeps. -/
theorem run_reads (h64 : env.usizeBits = 64) (hnode : ValidNodesize w.nodesize)
    (hg : w.Good S Inv Fin) (hgrow : w.Growing env g) (fuel : ℕ) (target : DiskKey) {s : σ}
    (hs : Inv s) : ∀ b ∈ leavesOf (Prog.trace g (w.run env fuel target s)),
      ∃ map', Keeps env (w.chunkMap s) map' ∧
        blockAt env map' w.nodesize g b.header.bytenr = .ok b := by
  induction fuel generalizing target s with
  | zero => simp [run, leavesOf]
  | succ fuel ih =>
    intro b hb
    rcases @leavesOf_run _ _ w g _ _ _ h64 hnode hg fuel target s hs with
      hnil | ⟨block, idx, hfind, hone | ⟨s', target', hs', hleaf, hmore⟩⟩
    · rw [hnil] at hb
      cases hb
    · rw [hone, List.mem_singleton] at hb
      subst hb
      exact ⟨_, Keeps.refl _, findFirstGe_read h64 hnode hfind⟩
    · rw [hmore] at hb
      rcases List.mem_cons.mp hb with rfl | hb
      · exact ⟨_, Keeps.refl _, findFirstGe_read h64 hnode hfind⟩
      · obtain ⟨map', hkeep, hread⟩ := ih target' hs' b hb
        exact ⟨map', (leaf_keeps hgrow hleaf).trans hkeep, hread⟩

/-- No address is gone through twice, if no leaf is. -/
theorem run_addresses (h64 : env.usizeBits = 64) (hnode : ValidNodesize w.nodesize)
    (hg : w.Good S Inv Fin) (hgrow : w.Growing env g) (fuel : ℕ) (target : DiskKey) {s : σ}
    (hs : Inv s) (hnodup : (leavesOf (Prog.trace g (w.run env fuel target s))).Nodup) :
    (addresses (Prog.trace g (w.run env fuel target s))).Nodup := by
  induction fuel generalizing target s with
  | zero => simp [run, addresses, leavesOf]
  | succ fuel ih =>
    rcases @leavesOf_run _ _ w g _ _ _ h64 hnode hg fuel target s hs with
      hnil | ⟨block, idx, hfind, hone | ⟨s', target', hs', hleaf, hmore⟩⟩
    · rw [addresses, hnil]
      exact List.nodup_nil
    · rw [addresses, hone]
      exact List.nodup_singleton _
    · rw [hmore] at hnodup
      obtain ⟨hnotin, hrest⟩ := List.nodup_cons.mp hnodup
      rw [addresses, hmore]
      refine List.nodup_cons.mpr ⟨?_, ih target' hs' hrest⟩
      intro hmem
      obtain ⟨b, hb, hsame⟩ := List.mem_map.mp hmem
      -- a later leaf at this address is this leaf
      obtain ⟨map', hkeep, hread⟩ := run_reads h64 hnode hg hgrow fuel target' hs' b hb
      have hblock := ((leaf_keeps hgrow hleaf).trans hkeep).readsBlock h64 hnode g
        (findFirstGe_read h64 hnode hfind)
      rw [hsame, hblock] at hread
      cases hread
      exact hnotin hb

end Walk

open Walk

/-! ### The four loops -/

/-- A call that goes through a tree from `target` on: forward only, no address twice,
no key past the last one, and to an end. -/
structure OneWay {α : Type} (g : (q : ReadReq) → Ans q) (target : DiskKey) (p : ReadM α) :
    Prop where
  ascending : (itemKeys (p.trace g)).Pairwise (· < ·)
  fromTarget : ∀ k ∈ itemKeys (p.trace g), target ≤ k
  once : (addresses (p.trace g)).Nodup
  nextKey_fits : p.run g ≠ fault .nextKey
  ends : p.run g ≠ fault .fuel

namespace OneWay

variable {α β : Type} {g : (q : ReadReq) → Ans q} {target : DiskKey} {S : Stop → Prop}

/-- From runs that take their items in order, with the two faults excluded. -/
theorem of_orderly {p : ReadM α} (h : p.Sat (Orderly S target))
    (hS : ¬ S (.fault .nextKey) ∧ ¬ S (.fault .fuel))
    (honce : (leavesOf (p.trace g)).Nodup → (addresses (p.trace g)).Nodup) :
    OneWay g target p where
  ascending := (h.run g).ascends.keys
  fromTarget := (h.run g).ascends.keys_ge
  once := honce (h.run g).ascends.leaves
  nextKey_fits hrun := hS.1 ((h.run g).stops _ hrun)
  ends hrun := hS.2 ((h.run g).stops _ hrun)

end OneWay

section Addresses

variable {α β : Type} {g : (q : ReadReq) → Ans q}

/-- What no leaf can be gone through twice in, no address can. -/
def Once (g : (q : ReadReq) → Ans q) (p : ReadM α) : Prop :=
  (leavesOf (p.trace g)).Nodup → (addresses (p.trace g)).Nodup

theorem once_of_leavesOf {p : ReadM α} (h : leavesOf (p.trace g) = []) : Once g p := by
  intro _
  rw [addresses, h]
  exact List.nodup_nil

theorem once_lift (r : Outcome α) : Once g (liftM r : ReadM α) :=
  once_of_leavesOf (by rw [Prog.trace_liftM]; rfl)

/-- A search or a read before a walk. -/
theorem once_after {p : ReadM α} {f : α → ReadM β} (hquiet : p.Notes PerItem)
    (hf : ∀ a, p.run g = .ok a → Once g (f a)) : Once g (p >>= f) := by
  have hleaves := leavesOf_inner fun e he => hquiet.sat.run g e he
  unfold Once addresses
  rw [Prog.trace_bind, leavesOf_append, hleaves, List.nil_append]
  cases hrun : p.run g with
  | error x => exact fun _ => List.nodup_nil
  | ok a => exact hf a hrun

/-- What is computed from the result of a walk. -/
theorem once_then {p : ReadM α} {f : α → Outcome β} (hp : Once g p) :
    Once g (p >>= fun a => (liftM (f a) : ReadM β)) := by
  unfold Once addresses
  rw [Prog.trace_bind]
  cases p.run g with
  | error x =>
    rw [List.append_nil]
    exact hp
  | ok a =>
    dsimp only
    rw [Prog.trace_liftM, List.append_nil]
    exact hp

/-- A walk over a map that stays. -/
theorem once_run {σ : Type} {env : Env} {w : Walk σ} {S : Stop → Prop} {Inv Fin : σ → Prop}
    (h64 : env.usizeBits = 64) (hnode : ValidNodesize w.nodesize) (hg : w.Good S Inv Fin)
    (hgrow : w.Growing env g) (target : DiskKey) {s : σ} (hs : Inv s) :
    Once g (w.run env fuel target s) :=
  run_addresses h64 hnode hg hgrow fuel target hs

end Addresses

section Calls

variable {env : Env} (h64 : env.usizeBits = 64) {map : ChunkMap} {geometry : Geometry}
  {fsTreeRoot objectid : ℕ} (g : (q : ReadReq) → Ans q)

include h64

theorem readFile_once : Once g (readFile env map geometry fsTreeRoot objectid) := by
  refine once_after ((readMetadata_notes _).mono fun _ => Reading.perItem) fun m hm => ?_
  have hsize : m.size < 2 ^ 64 :=
    (readMetadata_ensures h64 geometry.validNodesize).returns _ () hm
  split_ifs
  swap
  · exact once_lift _
  dsimp only
  rw [Env.tryIntoUsize_ok h64 hsize, liftM_ok_bind]
  refine once_after (Prog.notes_lift _) fun u hu => ?_
  rw [Prog.run_liftM] at hu
  have hgrant := (Env.tryReserve_eq_ok env).mp hu
  exact once_then (once_run h64 geometry.validNodesize
    (readFile_good h64 fsTreeRoot (hgrant.lt h64)) (fun _ _ _ _ _ => Keeps.refl _) _ trivial)

theorem readFileAt_once (offset : ℕ) (buf : List UInt8) :
    Once g (readFileAt env map geometry fsTreeRoot objectid offset buf) := by
  unfold readFileAt
  by_cases hbuf : buf.length = 0
  · rw [if_pos hbuf]
    exact once_of_leavesOf rfl
  rw [if_neg hbuf]
  refine once_after ((readMetadata_notes _).mono fun _ => Reading.perItem) fun m hm => ?_
  have hsize : m.size < 2 ^ 64 :=
    (readMetadata_ensures h64 geometry.validNodesize).returns _ () hm
  by_cases hfile : m.isFile = true
  swap
  · rw [if_pos hfile]
    exact once_lift _
  rw [if_neg (not_not.mpr hfile)]
  by_cases hend : m.size ≤ offset
  · rw [if_pos hend]
    exact once_of_leavesOf rfl
  rw [if_neg hend, Env.sub_ok env (by omega), liftM_ok_bind, Env.tryIntoUsize_ok h64 (by omega),
    liftM_ok_bind, sliceBounds_ok (Nat.zero_le _) (by omega), liftM_ok_bind]
  have hwant : offset + min buf.length (m.size - offset) < 2 ^ 64 := by omega
  have hthen := once_then (f := fun written => do
      let written ← fillTail env (min buf.length (m.size - offset)) written
      return (written.length, written ++ buf.drop written.length))
    (once_run (g := g) h64 (w := readFileAt.walk env map geometry fsTreeRoot objectid offset
      (min buf.length (m.size - offset))) geometry.validNodesize
      (readFileAt_good h64 fsTreeRoot hwant) (fun _ _ _ _ _ => Keeps.refl _)
      (extentsFrom objectid) (s := []) (by simp only [List.length_nil]; omega))
  convert hthen using 2
  funext written
  cases fillTail env (min buf.length (m.size - offset)) written <;> rfl

theorem readDir_once (trees : Trees) (dir : Inode) : Once g (readDir env trees dir) :=
  once_run h64 trees.validNodesize (readDir_good h64 trees dir) (fun _ _ _ _ _ => Keeps.refl _)
    _ fun _ he => absurd he List.not_mem_nil

theorem populateFromChunkTree_once {nodesize : ℕ} (hnode : ValidNodesize nodesize)
    (map : ChunkMap) (chunkRoot : ℕ) :
    Once g (populateFromChunkTree env map nodesize chunkRoot) := by
  refine once_run h64 hnode (populateFromChunkTree_good h64 nodesize chunkRoot) ?_ _ trivial
  intro block item s p hp
  obtain ⟨map', hmap', hp⟩ := (Prog.run_bind_eq_ok g).mp hp
  cases hp
  rw [Prog.run_liftM] at hmap'
  exact keeps_harvest hmap'

/-- Iteration over a tree ends and never comes back, on every image: a descent reads at
most 17 blocks, a search returns the first item of its leaf at or after the target, and
the four loops go one way. -/
theorem iteration_spec :
    (∀ map nodesize root target, ValidNodesize nodesize →
      blocksRead ((descendToLeaf env map nodesize root target).trace g) ≤ 17 ∧
      ∀ leaf i, (findFirstGe env map nodesize root target).run g = .ok (some (leaf, i)) →
        i < leaf.header.nritems ∧ ∃ x, leaf.leafItem env i = .ok x ∧ target ≤ x.key ∧
          ∀ j < i, ∃ y, leaf.leafItem env j = .ok y ∧ y.key < target) ∧
    (∀ map nodesize chunkRoot, ValidNodesize nodesize →
      OneWay g chunksFrom (populateFromChunkTree env map nodesize chunkRoot)) ∧
    (∀ (trees : Trees) (dir : Inode), dir.objectid < 2 ^ 64 →
      OneWay g (entriesFrom dir.objectid) (readDir env trees dir)) ∧
    ∀ map geometry fsTreeRoot objectid, objectid < 2 ^ 64 →
      OneWay g (extentsFrom objectid) (readFile env map geometry fsTreeRoot objectid) ∧
      ∀ offset buf,
        OneWay g (extentsFrom objectid)
          (readFileAt env map geometry fsTreeRoot objectid offset buf) := by
  have htyped : ¬ Stop.Typed (.fault .nextKey) ∧ ¬ Stop.Typed (.fault .fuel) := ⟨id, id⟩
  refine ⟨fun map nodesize root target hnode => ⟨?_, fun leaf i hfind => ?_⟩,
    fun map nodesize chunkRoot hnode => ?_, fun trees dir hino => ?_,
    fun map geometry fsTreeRoot objectid hino => ⟨?_, fun offset buf => ?_⟩⟩
  · exact (descendToLeaf_sat h64 hnode root target).run g
  · have hfirst := run_findFirstGe_first h64 hnode root g hfind
    obtain ⟨x, hx, hget, hok⟩ := hfirst.exists_item h64
    refine ⟨hfirst.lt, x, hok, hfirst.ge x hget, fun j hj => ?_⟩
    have hj' := List.getElem?_eq_getElem
      ((hj.trans hfirst.lt).trans_eq leaf.length_items.symm : j < leaf.items.length)
    exact ⟨_, hfirst.accepted.leafItem_ok h64 hfirst.level hj', hfirst.before j _ hj hj'⟩
  -- the four loops: orderly steps, and no leaf met twice
  · have hwalk := run_orderly h64 (w := populateFromChunkTree.walk env nodesize chunkRoot)
      hnode (populateFromChunkTree_good h64 nodesize chunkRoot)
      (⟨by decide, by decide, by decide⟩ : chunksFrom.Bounded) (s := map) trivial
    exact OneWay.of_orderly (hwalk.mono fun _ _ h => h.1) htyped
      (populateFromChunkTree_once h64 g hnode map chunkRoot)
  · exact OneWay.of_orderly ((readDir_orderly h64 trees hino).mono fun _ _ h => h.1) htyped
      (readDir_once h64 g trees dir)
  · exact OneWay.of_orderly (readFile_orderly h64 hino) htyped (readFile_once h64 g)
  · refine OneWay.of_orderly (readFileAt_orderly h64 hino offset buf) ⟨?_, ?_⟩
      (readFileAt_once h64 g offset buf)
    · rintro (h | ⟨h, -⟩)
      · exact h
      · cases h
    · rintro (h | ⟨h, -⟩)
      · exact h
      · cases h

end Calls

/-- Reading the first file of the sample volume goes one way. -/
theorem iteration_sample : OneWay sampleVolume.device.answer (extentsFrom 257)
    (readFile referenceEnv sampleMap sampleGeometry 0x100000 257) := by
  obtain ⟨-, -, -, hfiles⟩ := iteration_spec referenceEnv_usize64 sampleVolume.device.answer
  exact (hfiles sampleMap sampleGeometry 0x100000 257 (by decide)).1
