/-
What a file holds, and that the readers return it.

`fileByte` is the meaning of an inode's items: the byte at a position is the one
the first item in key order that declares it stores there, and a zero where no item
declares it.  It is `none` where that item declares the byte but holds none.

Both readers are folds over the same list of items (`run_readFile`,
`run_readFileAt`), and each fold is compared with `fileByte`, item by item:

* `readFile_fold_sound`, `readFileAt_fold_sound`: on every image, what a reader
  returns is `fileByte`, but for the two kinds of positions that it gets wrong;
* `readFile_fold_complete`, `readFileAt_fold_complete`: where the extents asked for
  are backed, it returns.
-/
import Lambutter.FileWalks

open Ranges SearchTree

/-! ### The file's content -/

section Content

variable (env : Env)

/-- The extent an item describes. -/
def extentOf (x : Located) : Outcome Extent := do
  let data ← x.1.leafItemData env x.2
  Extent.parse data

/-- The file position at which an item's extent starts. -/
def Located.start (x : Located) : ℕ := x.2.key.offset

/-- The first item that declares position `p`: where it starts, and its extent. -/
def declarer : List Located → ℕ → Option (ℕ × Extent)
  | [], _ => none
  | x :: xs, p =>
    match extentOf env x with
    | .error _ => declarer xs p
    | .ok e =>
      if x.start ≤ p ∧ p < x.start + e.declared then some (x.start, e) else declarer xs p

/-- The byte of the file at position `p`. -/
def fileByte (map : ChunkMap) (sectorsize : ℕ) (dev : Device) (items : List Located) (p : ℕ) :
    Option UInt8 :=
  match declarer env items p with
  | none => some 0
  | some (start, e) => e.byte env map sectorsize dev (p - start)

/-- The first item to declare `p` is inline, and its payload ends before `p`. -/
def ShortAt (sectorsize : ℕ) (items : List Located) (p : ℕ) : Prop :=
  ∃ start e, declarer env items p = some (start, e) ∧ e.Short env sectorsize (p - start)

/-- The first item to declare `p` is compressed, and `p` lies past `u64` in it. -/
def OverflowsAt (items : List Located) (p : ℕ) : Prop :=
  ∃ start e, declarer env items p = some (start, e) ∧ e.Overflows (p - start)

end Content

section Declarer

variable {env : Env} {x : Located} {xs : List Located} {p : ℕ}

theorem declarer_hit {e : Extent} (he : extentOf env x = .ok e) (h1 : x.start ≤ p)
    (h2 : p < x.start + e.declared) : declarer env (x :: xs) p = some (x.start, e) := by
  rw [declarer, he]
  dsimp only
  rw [if_pos ⟨h1, h2⟩]

theorem declarer_miss {e : Extent} (he : extentOf env x = .ok e)
    (h : p < x.start ∨ x.start + e.declared ≤ p) :
    declarer env (x :: xs) p = declarer env xs p := by
  rw [declarer, he]
  dsimp only
  rw [if_neg (by omega)]

theorem declarer_eq_none_of_lt (h : ∀ y ∈ xs, p < y.start) : declarer env xs p = none := by
  induction xs with
  | nil => rfl
  | cons y ys ih =>
    have hy := h y (by simp)
    rw [declarer]
    cases extentOf env y with
    | error _ => exact ih fun z hz => h z (by simp [hz])
    | ok e =>
      dsimp only
      rw [if_neg (by omega)]
      exact ih fun z hz => h z (by simp [hz])

theorem declarer_mem {start : ℕ} {e : Extent} (h : declarer env xs p = some (start, e)) :
    ∃ y ∈ xs, extentOf env y = .ok e ∧ y.start = start ∧ start ≤ p ∧ p < start + e.declared := by
  induction xs with
  | nil => cases h
  | cons y ys ih =>
    rw [declarer] at h
    cases he : extentOf env y with
    | error _ =>
      rw [he] at h
      obtain ⟨z, hz, hrest⟩ := ih h
      exact ⟨z, by simp [hz], hrest⟩
    | ok e' =>
      rw [he] at h
      dsimp only at h
      split_ifs at h with hin
      · cases h
        exact ⟨y, by simp, he, rfl, hin⟩
      · obtain ⟨z, hz, hrest⟩ := ih h
        exact ⟨z, by simp [hz], hrest⟩

end Declarer

/-- The extents of an inode, in a tree whose items are known. -/
theorem TreeHolds.extents {env : Env} {n : ℕ} {t : Tree DiskKey TreeBlock n}
    {held : List (DiskKey × List UInt8)} (h : TreeHolds env n t held) (objectid : ℕ) :
    (inodeItems n t objectid).map (fun x => (x.start, extentOf env x)) =
      (held.filter fun y => y.1.objectid == objectid && y.1.itemType == extentDataKey).map
        fun y => (y.1.offset, Extent.parse y.2) := by
  have hfiltered := congrArg (List.map fun y => (y.1.offset, y.2 >>= Extent.parse))
    (h.filtered fun key => key.objectid == objectid && key.itemType == extentDataKey)
  rw [List.map_map, List.map_map] at hfiltered
  exact hfiltered

/-! ### Reads as folds -/

/-- The items of a list in the order of the file. -/
def InOrder (objectid : ℕ) (xs : List Located) : Prop :=
  (∀ x ∈ xs, isExtentOf objectid x.2 = true ∧ x.2 ∈ x.1.items) ∧
    xs.Pairwise fun x y => x.start < y.start

theorem InOrder.tail {objectid : ℕ} {x : Located} {xs : List Located}
    (h : InOrder objectid (x :: xs)) : InOrder objectid xs :=
  ⟨fun y hy => h.1 y (by simp [hy]), (List.pairwise_cons.mp h.2).2⟩

/-- Before the start of the first item no item declares anything. -/
theorem InOrder.declarer_eq_none {env : Env} {objectid : ℕ} {x : Located} {xs : List Located}
    (h : InOrder objectid (x :: xs)) {p : ℕ} (hp : p < x.start) :
    declarer env (x :: xs) p = none := by
  refine declarer_eq_none_of_lt fun y hy => ?_
  rcases List.mem_cons.mp hy with rfl | hy
  · exact hp
  · exact hp.trans ((List.pairwise_cons.mp h.2).1 y hy)

theorem fileItems_inOrder {env : Env} (h64 : env.usizeBits = 64) (map : ChunkMap)
    (geometry : Geometry) (fsTreeRoot objectid : ℕ) (g : (q : ReadReq) → Ans q) :
    InOrder objectid (fileItems env map geometry fsTreeRoot objectid g).1 := by
  obtain ⟨hmet, hsorted⟩ := @passes_sound _ h64 map _ geometry.validNodesize fsTreeRoot
    (isExtentOf objectid) g Walk.fuel (extentsFrom objectid)
  refine ⟨fun x hx => ⟨(hmet x hx).mine, (hmet x hx).mem⟩, ?_⟩
  refine List.Pairwise.imp_of_mem (fun {x y} hx hy hlt => ?_) hsorted
  obtain ⟨hx1, hx2⟩ := isExtentOf_iff.mp (hmet x hx).mine
  obtain ⟨hy1, hy2⟩ := isExtentOf_iff.mp (hmet y hy).mine
  rcases DiskKey.lt_iff.mp hlt with h | ⟨-, h | ⟨-, h⟩⟩
  · omega
  · omega
  · exact h

section ReadFile

variable {env : Env} (h64 : env.usizeBits = 64) {map : ChunkMap} {geometry : Geometry}
  {fsTreeRoot objectid fileSize : ℕ} {dev : Device}

/-- `out` filled up to the start of the next extent. -/
def padded (out : List UInt8) (start : ℕ) : List UInt8 :=
  out ++ List.replicate (start - out.length) 0

theorem length_padded {out : List UInt8} {start : ℕ} (h : out.length ≤ start) :
    (padded out start).length = start := by
  rw [padded, List.length_append, List.length_replicate]
  omega

theorem getElem?_padded {out : List UInt8} {start p : ℕ} (h1 : out.length ≤ p) (h2 : p < start) :
    (padded out start)[p]? = some 0 := by
  rw [padded, List.getElem?_append_right h1, List.getElem?_replicate, if_pos (by omega)]

include h64

/-- One step of `read_file` over an item of the inode. -/
theorem readFile_step (g : (q : ReadReq) → Ans q) {x : Located}
    (hmine : isExtentOf objectid x.2 = true) (hsize : fileSize + 1 < 2 ^ 64) (out : List UInt8) :
    (readFile.walk env map geometry fsTreeRoot objectid fileSize).step g x out =
      if x.start < out.length then err (.corruptBtree "extent_overlap" x.1.header.bytenr)
      else if fileSize < x.start then err (.corruptBtree "extent_past_eof" x.1.header.bytenr)
      else do
        let e ← extentOf env x
        let out ← (e.apply env map geometry.sectorsize (padded out x.start) fileSize).run g
        return readFile.pace fileSize x.2 out := by
  show (readFile.item env map geometry objectid fileSize x.1 x.2 out).run g = _
  rw [readFile_item_eq h64 hmine hsize]
  unfold extentOf Located.start padded
  split_ifs
  · rfl
  · rfl
  · simp only [Prog.run_bind, Prog.run_liftM, Prog.run_pure, bind_assoc]
    rfl

/-- On every image: what `read_file` has put together is the file's content, but where
an inline payload is shorter than declared; and so are the zeros it will append. -/
theorem readFile_fold_sound (hsize : fileSize + 1 < 2 ^ 64) {xs : List Located}
    (hxs : InOrder objectid xs) {stop : Option Stop} {out out' : List UInt8}
    (hout : out.length < fileSize)
    (h : fold ((readFile.walk env map geometry fsTreeRoot objectid fileSize).step dev.answer) xs
      (ending stop) out = .ok out') :
    (∃ rest, out' = out ++ rest) ∧
    (∀ p b, out.length ≤ p → p < fileSize → out'[p]? = some b →
      fileByte env map geometry.sectorsize dev xs p = some b ∨
        ShortAt env geometry.sectorsize xs p) ∧
    ∀ p, out'.length ≤ p → p < fileSize →
      fileByte env map geometry.sectorsize dev xs p = some 0 ∨
        ShortAt env geometry.sectorsize xs p := by
  induction xs generalizing out with
  | nil =>
    have hend : out = out' := by
      cases stop with
      | none => exact Except.ok.inj h
      | some x => cases h
    subst hend
    refine ⟨⟨[], (List.append_nil out).symm⟩, fun p b hle _ hp => ?_, fun p _ _ => .inl rfl⟩
    rw [List.getElem?_eq_none hle] at hp
    cases hp
  | cons x xs ih =>
    rw [fold, readFile_step h64 dev.answer (hxs.1 x (by simp)).1 hsize] at h
    split_ifs at h with hoverlap heof
    · cases h
    · cases h
    cases he : extentOf env x with
    | error _ =>
      rw [he] at h
      cases h
    | ok e =>
      rw [he, Except.ok_bind] at h
      cases happly : (e.apply env map geometry.sectorsize (padded out x.start) fileSize).run
          dev.answer with
      | error _ =>
        rw [happly] at h
        cases h
      | ok mid =>
        rw [happly, Except.ok_bind] at h
        obtain ⟨data, -, hparse⟩ := Except.bind_eq_ok.mp he
        obtain ⟨bytes, rfl, hle, hbytes, hshort⟩ :=
          Extent.apply_sound h64 geometry.validSectorsize hparse happly
        have hpad : (padded out x.start).length = x.start := length_padded (by omega)
        have hmid : (padded out x.start ++ bytes).length = x.start + bytes.length := by
          rw [List.length_append, hpad]
        -- the gap and the extent itself
        have hhere : ∀ p b, out.length ≤ p → p < fileSize →
            (padded out x.start ++ bytes)[p]? = some b →
              fileByte env map geometry.sectorsize dev (x :: xs) p = some b ∨
                ShortAt env geometry.sectorsize (x :: xs) p := by
          intro p b hp _ hb
          refine .inl ?_
          unfold fileByte
          by_cases hgap : p < x.start
          · rw [List.getElem?_append_left (by omega), getElem?_padded hp hgap] at hb
            rw [hxs.declarer_eq_none hgap]
            exact hb
          · rw [List.getElem?_append_right (by omega), hpad] at hb
            obtain ⟨hlt, rfl⟩ := List.getElem?_eq_some_iff.mp hb
            rw [declarer_hit he (by omega) (by omega)]
            exact hbytes _ hlt
        -- what the extent does not bring is left to the items after it
        have hlater : ∀ p b, x.start + bytes.length ≤ p → p < fileSize →
            (fileByte env map geometry.sectorsize dev xs p = some b ∨
              ShortAt env geometry.sectorsize xs p) →
            fileByte env map geometry.sectorsize dev (x :: xs) p = some b ∨
              ShortAt env geometry.sectorsize (x :: xs) p := by
          intro p b hp hlt hrest
          by_cases hin : p < x.start + e.declared
          · exact .inr ⟨x.start, e, declarer_hit he (by omega) hin,
              hshort _ (by omega) (by omega) (by omega)⟩
          · unfold fileByte ShortAt at hrest ⊢
            rwa [declarer_miss he (.inr (by omega))]
        have hextends : ∃ rest, padded out x.start ++ bytes = out ++ rest :=
          ⟨List.replicate (x.start - out.length) 0 ++ bytes, by rw [padded, List.append_assoc]⟩
        unfold readFile.pace at h
        split_ifs at h with hfull
        · cases h
          exact ⟨hextends, hhere, fun p hp hlt => by omega⟩
        · obtain ⟨⟨rest, hrest⟩, hbytes', hzeros⟩ := ih hxs.tail (by omega) h
          obtain ⟨rest', hrest'⟩ := hextends
          refine ⟨⟨rest' ++ rest, by rw [hrest, hrest', List.append_assoc]⟩,
            fun p b hp hlt hb => ?_, fun p hp hlt => ?_⟩
          · by_cases hold : p < x.start + bytes.length
            · rw [hrest, List.getElem?_append_left (by omega)] at hb
              exact hhere p b hp hlt hb
            · exact hlater p b (by omega) hlt (hbytes' p b (by omega) hlt hb)
          · refine hlater p 0 ?_ hlt (hzeros p hp hlt)
            rw [hrest, List.length_append] at hp
            omega

omit h64 in
/-- What `read_file` makes of the vector in the end. -/
def fitted (out : List UInt8) (size : ℕ) : List UInt8 := (padded out size).take size

omit h64 in
theorem length_fitted (out : List UInt8) (size : ℕ) : (fitted out size).length = size := by
  rw [fitted, padded, List.length_take, List.length_append, List.length_replicate]
  omega

omit h64 in
theorem getElem?_fitted {out : List UInt8} {size p : ℕ} (hp : p < size) :
    (fitted out size)[p]? = if p < out.length then out[p]? else some 0 := by
  rw [fitted, List.getElem?_take_of_lt hp]
  split_ifs with h
  · rw [padded, List.getElem?_append_left h]
  · exact getElem?_padded (by omega) hp

theorem finalize_eq (out : List UInt8) {size : ℕ} (hsize : size < 2 ^ 64) :
    finalize env out size = .ok (fitted out size) := by
  unfold finalize
  rw [Env.tryIntoUsize_ok h64 hsize, Except.ok_bind]
  split_ifs with hlt
  · rw [fitted, List.take_of_length_le (by rw [length_padded hlt.le])]
    rfl
  · have hpad : padded out size = out := by
      rw [padded, Nat.sub_eq_zero_of_le (by omega), List.replicate_zero, List.append_nil]
    rw [fitted, hpad]
    rfl

/-- Reading an inode's metadata does not panic, and sizes are in `u64`. -/
theorem readMetadata_ensures {nodesize : ℕ} (hnode : ValidNodesize nodesize) :
    Prog.Ensures Stop.Typed (readMetadata env map nodesize fsTreeRoot objectid)
      fun m => m.size < 2 ^ 64 := by
  unfold readMetadata
  split_ifs
  · exact Prog.Ensures.pure (by decide)
  refine Prog.Ensures.bind (findFirstGe_ensures h64 hnode _ _) fun r hr => ?_
  cases r with
  | none => exact trivial
  | some r =>
    obtain ⟨leaf, idx⟩ := r
    have hfirst := hr leaf idx rfl
    have hitem := List.getElem?_eq_getElem (hfirst.lt.trans_eq leaf.length_items.symm)
    dsimp only
    rw [hfirst.accepted.leafItem_ok h64 hfirst.level hitem, liftM_ok_bind]
    split_ifs
    · exact trivial
    refine Prog.Ensures.bind (ensures_lift (TreeBlock.leafItemData_safe h64 (List.getElem_mem _))
      fun _ _ => trivial) fun data (_ : True) => ?_
    rw [InodeItem.parse_eq (Env.usize_ge h64), liftM_ok_bind]
    refine Prog.Ensures.bind (ensures_lift (Outcome.safe_okOr _ _) fun _ ha => okOr_eq_ok.mp ha)
      fun inode hinode => Prog.Ensures.pure ?_
    split_ifs at hinode
    cases hinode
    exact leAt_lt data _ 8

theorem Env.Grants.lt {n : ℕ} (h : env.Grants n) : n + 1 < 2 ^ 64 := by
  rcases h with h | ⟨h, -⟩
  · omega
  · rw [h64] at h
    omega

/-- `read_file` with fixed answers is a fold over the inode's items. -/
theorem run_readFile (g : (q : ReadReq) → Ans q) {m : Metadata}
    (hmeta : (readMetadata env map geometry.nodesize fsTreeRoot objectid).run g = .ok m)
    (hfile : m.isFile = true) (hgrant : env.Grants m.size) :
    (readFile env map geometry fsTreeRoot objectid).run g = (do
      let out ← (if m.size = 0 then .ok []
        else fold ((readFile.walk env map geometry fsTreeRoot objectid m.size).step g)
          (fileItems env map geometry fsTreeRoot objectid g).1
          (ending (fileItems env map geometry fsTreeRoot objectid g).2) [] : Outcome _)
      return fitted out m.size) := by
  have hsize := hgrant.lt h64
  unfold readFile
  rw [Prog.run_bind, hmeta, Except.ok_bind, if_neg (by simpa using hfile)]
  dsimp only
  rw [Env.tryIntoUsize_ok h64 (by omega), liftM_ok_bind,
    (Env.tryReserve_eq_ok env).mpr hgrant, liftM_ok_bind, Prog.run_bind]
  have hfinal : ∀ out, Prog.run g (liftM (finalize env out m.size) : ReadM (List UInt8)) =
      .ok (fitted out m.size) := fun out => by
    rw [Prog.run_liftM, finalize_eq h64 out (by omega)]
  simp only [hfinal]
  refine congrArg (· >>= _) ?_
  by_cases hzero : m.size = 0
  · rw [if_pos hzero, Walk.fuel, show 2 ^ 136 = (2 ^ 136 - 1) + 1 from rfl, Walk.run, if_neg]
    · rfl
    · simp [readFile.walk, hzero]
  · rw [if_neg hzero]
    exact Walk.run_eq h64 geometry.validNodesize (readFile_steady h64 hsize fsTreeRoot g) _ _ _
      (by simpa using Nat.pos_of_ne_zero hzero)

/-- What a successful `read_file` went through. -/
theorem readFile_ok (g : (q : ReadReq) → Ans q) {out : List UInt8}
    (h : (readFile env map geometry fsTreeRoot objectid).run g = .ok out) :
    ∃ m, (readMetadata env map geometry.nodesize fsTreeRoot objectid).run g = .ok m ∧
      m.isFile = true ∧ env.Grants m.size := by
  unfold readFile at h
  simp only [Prog.run_bind, Except.bind_eq_ok] at h
  obtain ⟨m, hmeta, h⟩ := h
  have hlt := (readMetadata_ensures h64 geometry.validNodesize).returns _ () hmeta
  by_cases hfile : m.isFile = true
  swap
  · rw [if_pos hfile] at h
    exact absurd h err_ne_ok
  rw [if_neg (not_not.mpr hfile), Env.tryIntoUsize_ok h64 hlt, liftM_ok_bind] at h
  simp only [Prog.run_bind, Prog.run_liftM, Except.bind_eq_ok] at h
  obtain ⟨_, hgrant, -⟩ := h
  exact ⟨m, hmeta, hfile, (Env.tryReserve_eq_ok env).mp hgrant⟩

/-- On every image: what `read_file` returns. -/
theorem readFile_sound {m : Metadata}
    (hmeta : (readMetadata env map geometry.nodesize fsTreeRoot objectid).run dev.answer = .ok m)
    {out : List UInt8}
    (h : (readFile env map geometry fsTreeRoot objectid).run dev.answer = .ok out) :
    out.length = m.size ∧ ∀ p b, out[p]? = some b →
      fileByte env map geometry.sectorsize dev
        (fileItems env map geometry fsTreeRoot objectid dev.answer).1 p = some b ∨
      ShortAt env geometry.sectorsize
        (fileItems env map geometry fsTreeRoot objectid dev.answer).1 p := by
  obtain ⟨m', hmeta', hfile, hgrant⟩ := readFile_ok h64 dev.answer h
  rw [hmeta] at hmeta'
  cases hmeta'
  rw [run_readFile h64 dev.answer hmeta hfile hgrant] at h
  obtain ⟨raw, hraw, hout⟩ := Except.bind_eq_ok.mp h
  cases hout
  refine ⟨length_fitted raw m.size, fun p b hb => ?_⟩
  have hp : p < m.size := by
    have := (List.getElem?_eq_some_iff.mp hb).1
    rwa [length_fitted] at this
  rw [getElem?_fitted hp] at hb
  rw [if_neg (by omega)] at hraw
  obtain ⟨-, hbytes, hzeros⟩ := readFile_fold_sound h64 (hgrant.lt h64)
    (fileItems_inOrder h64 map geometry fsTreeRoot objectid dev.answer)
    (by simpa using (by omega : 0 < m.size)) hraw
  split_ifs at hb with hlt
  · exact hbytes p b (Nat.zero_le _) hp hb
  · cases hb
    exact hzeros p (by omega) hp

end ReadFile

section ReadFileAt

variable {env : Env} (h64 : env.usizeBits = 64) {map : ChunkMap} {geometry : Geometry}
  {fsTreeRoot objectid offset want : ℕ} {dev : Device}

theorem readFileAt.getElem?_filled {start i : ℕ} {written : List UInt8}
    (h1 : written.length ≤ i) (h2 : i < (readFileAt.filled offset want start written).length) :
    (readFileAt.filled offset want start written)[i]? = some 0 := by
  rw [readFileAt.filled, List.length_append, List.length_replicate] at h2
  rw [readFileAt.filled, List.getElem?_append_right h1, List.getElem?_replicate, if_pos (by omega)]

include h64

/-- One step of `read_file_at` over an item of the inode. -/
theorem readFileAt_step (g : (q : ReadReq) → Ans q) {x : Located}
    (hmine : isExtentOf objectid x.2 = true) (hitem : x.2 ∈ x.1.items)
    (hrange : offset + want < 2 ^ 64) {written : List UInt8} (hwritten : written.length < want) :
    (readFileAt.walk env map geometry fsTreeRoot objectid offset want).step g x written = (do
      let e ← extentOf env x
      let stop := min (x.start + e.declared) (2 ^ 64 - 1)
      if stop ≤ offset + written.length then return .more written x.2.key.next
      else
        let filled := readFileAt.filled offset want x.start written
        if filled.length = want then return .leave filled
        else
          let position := offset + filled.length
          let bytes ← (e.copy env map geometry.sectorsize (position - x.start)
            (min (stop - position) (want - filled.length))).run g
          return readFileAt.pace want x.2 (filled ++ bytes)) := by
  have hkey := (TreeBlock.item_bounds hitem).2.2.offset
  show (readFileAt.item env map geometry objectid offset want x.1 x.2 written).run g = _
  rw [readFileAt_item_eq h64 hkey hmine hrange hwritten, readFileAt.body]
  unfold extentOf Located.start
  simp only [Prog.run_bind, Prog.run_liftM, bind_assoc]
  refine congrArg _ (funext fun data => congrArg _ (funext fun e => ?_))
  split_ifs
  · rfl
  · rfl
  · simp only [Prog.run_bind, run_note_event, Except.ok_bind, Prog.run_pure]
    rfl

/-- On every image: what `read_file_at` has written is the file's content, but where a
position wraps; and so are the zeros it will append. -/
theorem readFileAt_fold_sound (hrange : offset + want < 2 ^ 64) {xs : List Located}
    (hxs : InOrder objectid xs) {stop : Option Stop} {written written' : List UInt8}
    (hwritten : written.length < want)
    (h : fold ((readFileAt.walk env map geometry fsTreeRoot objectid offset want).step dev.answer)
      xs (ending stop) written = .ok written') :
    written'.length ≤ want ∧ (∃ rest, written' = written ++ rest) ∧
    (∀ i b, written.length ≤ i → written'[i]? = some b →
      fileByte env map geometry.sectorsize dev xs (offset + i) = some b ∨
        env.overflowChecks = false ∧ OverflowsAt env xs (offset + i)) ∧
    ∀ i, written'.length ≤ i → i < want → declarer env xs (offset + i) = none := by
  induction xs generalizing written with
  | nil =>
    have hend : written = written' := by
      cases stop with
      | none => exact Except.ok.inj h
      | some x => cases h
    subst hend
    refine ⟨hwritten.le, ⟨[], (List.append_nil written).symm⟩, fun i b hle hi => ?_,
      fun i _ _ => rfl⟩
    rw [List.getElem?_eq_none hle] at hi
    cases hi
  | cons x xs ih =>
    obtain ⟨hmine, hitem⟩ := hxs.1 x (by simp)
    rw [fold, readFileAt_step h64 dev.answer hmine hitem hrange hwritten] at h
    cases he : extentOf env x with
    | error _ =>
      rw [he] at h
      cases h
    | ok e =>
      rw [he, Except.ok_bind] at h
      dsimp only at h
      have hkey : x.start < 2 ^ 64 := (TreeBlock.item_bounds hitem).2.2.offset
      set last := min (x.start + e.declared) (2 ^ 64 - 1) with hlast
      -- positions past the extent are left to the items after it
      have hlater : ∀ i, last ≤ offset + i → i < want →
          declarer env (x :: xs) (offset + i) = declarer env xs (offset + i) :=
        fun i hi hlt => declarer_miss he (.inr (by omega))
      by_cases hskip : last ≤ offset + written.length
      · rw [if_pos hskip] at h
        obtain ⟨hle, hextends, hbytes, hnone⟩ := ih hxs.tail hwritten h
        refine ⟨hle, hextends, fun i b hi hb => ?_, fun i hi hlt => ?_⟩
        · have hlt := (List.getElem?_eq_some_iff.mp hb).1
          have := hbytes i b hi hb
          unfold fileByte OverflowsAt at this ⊢
          rwa [hlater i (by omega) (by omega)]
        · obtain ⟨rest, hrest⟩ := hextends
          rw [hlater i ?_ hlt]
          · exact hnone i hi hlt
          · rw [hrest, List.length_append] at hi
            omega
      rw [if_neg hskip] at h
      have hlen := readFileAt.length_filled offset x.start hwritten.le
      have hfilledPrefix : ∃ rest,
          readFileAt.filled offset want x.start written = written ++ rest :=
        ⟨_, rfl⟩
      have hgap : ∀ {i b}, written.length ≤ i →
          i < (readFileAt.filled offset want x.start written).length →
          (readFileAt.filled offset want x.start written)[i]? = some b →
          fileByte env map geometry.sectorsize dev (x :: xs) (offset + i) = some b := by
        intro i b hi hlt hb
        rw [readFileAt.getElem?_filled hi hlt] at hb
        unfold fileByte
        rw [hxs.declarer_eq_none (by omega)]
        exact hb
      generalize readFileAt.filled offset want x.start written = filled at h hlen hfilledPrefix hgap
      by_cases hfull : filled.length = want
      · rw [if_pos hfull] at h
        cases h
        exact ⟨hfull.le, hfilledPrefix, fun i b hi hb =>
          .inl (hgap hi (List.getElem?_eq_some_iff.mp hb).1 hb), fun i hi hlt => by omega⟩
      rw [if_neg hfull] at h
      set position := offset + filled.length with hposition
      cases hcopy : (e.copy env map geometry.sectorsize (position - x.start)
          (min (last - position) (want - filled.length))).run dev.answer with
      | error _ =>
        rw [hcopy] at h
        cases h
      | ok bytes =>
        rw [hcopy, Except.ok_bind] at h
        obtain ⟨data, -, hparse⟩ := Except.bind_eq_ok.mp he
        obtain ⟨hlength, hstored⟩ := Extent.copy_sound h64 geometry.validSectorsize hparse
          (by omega) (by omega) hcopy
        have hmid : (filled ++ bytes).length = filled.length + bytes.length := List.length_append
        obtain ⟨rest, hrest⟩ := hfilledPrefix
        -- the gap and the slice of the extent
        have hhere : ∀ i b, written.length ≤ i → (filled ++ bytes)[i]? = some b →
            fileByte env map geometry.sectorsize dev (x :: xs) (offset + i) = some b ∨
              env.overflowChecks = false ∧ OverflowsAt env (x :: xs) (offset + i) := by
          intro i b hi hb
          by_cases hlt : i < filled.length
          · rw [List.getElem?_append_left hlt] at hb
            exact .inl (hgap hi hlt hb)
          · rw [List.getElem?_append_right (by omega)] at hb
            obtain ⟨hj, rfl⟩ := List.getElem?_eq_some_iff.mp hb
            have hhit : declarer env (x :: xs) (offset + i) = some (x.start, e) :=
              declarer_hit he (by omega) (by omega)
            have hat : position - x.start + (i - filled.length) = offset + i - x.start := by omega
            have hs := hstored (i - filled.length) hj
            rw [hat] at hs
            rcases hs with hs | ⟨hchecks, hover⟩
            · refine .inl ?_
              unfold fileByte
              rw [hhit]
              exact hs
            · exact .inr ⟨hchecks, x.start, e, hhit, hover⟩
        unfold readFileAt.pace at h
        split_ifs at h with hdone
        · cases h
          refine ⟨hdone.le, ⟨rest ++ bytes, by rw [hrest, List.append_assoc]⟩, hhere,
            fun i hi hlt => by omega⟩
        · obtain ⟨hle, ⟨rest', hrest'⟩, hbytes, hnone⟩ := ih hxs.tail (by omega) h
          have hpast : ∀ i, (filled ++ bytes).length ≤ i → i < want → last ≤ offset + i := by
            intro i hi hlt
            omega
          refine ⟨hle, ⟨rest ++ (bytes ++ rest'), by rw [hrest', hrest]; simp⟩, fun i b hi hb => ?_,
            fun i hi hlt => ?_⟩
          · by_cases hold : i < (filled ++ bytes).length
            · rw [hrest', List.getElem?_append_left hold] at hb
              exact hhere i b hi hb
            · have hlt := (List.getElem?_eq_some_iff.mp hb).1
              have := hbytes i b (by omega) hb
              unfold fileByte OverflowsAt at this ⊢
              rwa [hlater i (hpast i (by omega) (by omega)) (by omega)]
          · have hge : (filled ++ bytes).length ≤ i := by
              rw [hrest', List.length_append] at hi
              omega
            rw [hlater i (hpast i hge hlt) hlt]
            exact hnone i hi hlt

theorem fillTail_eq {written : List UInt8} (hwant : want < 2 ^ 64) :
    fillTail env want written = .ok (padded written want) := by
  unfold fillTail
  split_ifs with hlt
  · rw [Env.sub_ok env hlt.le, Except.ok_bind, Env.addUsize_ok h64 (by omega), Except.ok_bind,
      sliceBounds_ok (by omega) (by omega)]
    rfl
  · rw [padded, Nat.sub_eq_zero_of_le (by omega), List.replicate_zero, List.append_nil]

/-- `read_file_at` with fixed answers is a fold over the inode's items. -/
theorem run_readFileAt (g : (q : ReadReq) → Ans q) {m : Metadata}
    (hmeta : (readMetadata env map geometry.nodesize fsTreeRoot objectid).run g = .ok m)
    (hfile : m.isFile = true) {buf : List UInt8} (hbuf : buf ≠ []) (hoffset : offset < m.size) :
    (readFileAt env map geometry fsTreeRoot objectid offset buf).run g = (do
      let want := min buf.length (m.size - offset)
      let written ← fold ((readFileAt.walk env map geometry fsTreeRoot objectid offset want).step g)
          (fileItems env map geometry fsTreeRoot objectid g).1
          (ending (fileItems env map geometry fsTreeRoot objectid g).2) []
      let written := padded written want
      return (written.length, written ++ buf.drop written.length)) := by
  have hlt := (readMetadata_ensures h64 geometry.validNodesize).returns _ () hmeta
  have hlen : 0 < buf.length := List.length_pos_iff.mpr hbuf
  unfold readFileAt
  rw [if_neg (by omega), Prog.run_bind, hmeta, Except.ok_bind, if_neg (by simpa using hfile),
    if_neg (by omega), Env.sub_ok env hoffset.le, liftM_ok_bind,
    Env.tryIntoUsize_ok h64 (by omega), liftM_ok_bind, sliceBounds_ok (Nat.zero_le _) (by omega),
    liftM_ok_bind, Prog.run_bind]
  dsimp only
  have hwalk := Walk.run_eq h64 geometry.validNodesize
    (@readFileAt_steady _ h64 map geometry objectid offset (min buf.length (m.size - offset))
      (by omega) fsTreeRoot g) Walk.fuel
    (extentsFrom objectid) [] (by simp only [List.length_nil]; omega)
  refine Eq.trans (congrArg (· >>= _) hwalk) ?_
  refine congrArg _ (funext fun written => ?_)
  rw [fillTail_eq h64 (by omega)]
  rfl

/-- On every image: what `read_file_at` returns. -/
theorem readFileAt_sound {m : Metadata}
    (hmeta : (readMetadata env map geometry.nodesize fsTreeRoot objectid).run dev.answer = .ok m)
    {buf buf' : List UInt8} {n : ℕ}
    (h : (readFileAt env map geometry fsTreeRoot objectid offset buf).run dev.answer =
      .ok (n, buf')) :
    n = min buf.length (m.size - offset) ∧ n ≤ buf'.length ∧ buf'.drop n = buf.drop n ∧
    ∀ i b, i < n → buf'[i]? = some b →
      fileByte env map geometry.sectorsize dev
        (fileItems env map geometry fsTreeRoot objectid dev.answer).1 (offset + i) = some b ∨
      env.overflowChecks = false ∧ OverflowsAt env
        (fileItems env map geometry fsTreeRoot objectid dev.answer).1 (offset + i) := by
  have hlt := (readMetadata_ensures h64 geometry.validNodesize).returns _ () hmeta
  -- the requests that return before the walk: no buffer, no file, or past its end
  by_cases hbuf : buf = []
  · subst hbuf
    cases h
    exact ⟨by simp, Nat.le_refl 0, rfl, fun i b hi => absurd hi (Nat.not_lt_zero i)⟩
  have hlen : 0 < buf.length := List.length_pos_iff.mpr hbuf
  have hfile : m.isFile = true := by
    by_contra hfile
    unfold readFileAt at h
    rw [if_neg (by omega), Prog.run_bind, hmeta, Except.ok_bind, if_pos hfile] at h
    exact absurd h err_ne_ok
  by_cases hoffset : offset < m.size
  swap
  · unfold readFileAt at h
    rw [if_neg (by omega), Prog.run_bind, hmeta, Except.ok_bind, if_neg (by simpa using hfile),
      if_pos (by omega)] at h
    cases h
    exact ⟨by omega, Nat.zero_le _, rfl, fun i b hi => absurd hi (Nat.not_lt_zero i)⟩
  rw [run_readFileAt h64 dev.answer hmeta hfile hbuf hoffset] at h
  obtain ⟨written, hfold, hout⟩ := Except.bind_eq_ok.mp h
  set want := min buf.length (m.size - offset) with hwant
  -- what the walk wrote is stored data, and no item declares what it left out
  obtain ⟨hle, -, hbytes, hnone⟩ := readFileAt_fold_sound h64 (by omega)
    (fileItems_inOrder h64 map geometry fsTreeRoot objectid dev.answer)
    (by simp only [List.length_nil]; omega) hfold
  have hpad : (padded written want).length = want := length_padded hle
  dsimp only at hout
  rw [hpad] at hout
  obtain ⟨rfl, rfl⟩ := Prod.mk.inj (Except.ok.inj hout)
  refine ⟨rfl, by rw [List.length_append]; omega, ?_, fun i b hi hb => ?_⟩
  · rw [List.drop_append_of_le_length (by omega), List.drop_of_length_le (by omega),
      List.nil_append]
  · rw [List.getElem?_append_left (by omega)] at hb
    -- a byte is either written by the walk or part of the zero tail
    by_cases hold : i < written.length
    · rw [padded, List.getElem?_append_left hold] at hb
      exact hbytes i b (Nat.zero_le _) hb
    · rw [getElem?_padded (by omega) hi] at hb
      refine .inl ?_
      unfold fileByte
      rw [hnone i (by omega) hi]
      exact hb

end ReadFileAt
