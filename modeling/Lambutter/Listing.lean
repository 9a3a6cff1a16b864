/-
Listing a directory, and looking a name up in it.

On a well-formed tree the listing goes through the index items of the directory, all of
them and in order (`readDir_run`), so it is complete as soon as each of them holds a
record that leads somewhere (`readDir_complete`).

A lookup takes another way: it goes to the item of the name's hash and scans the records
packed there.  `Recorded` says that the two indexes of a directory hold the same
entries; then the two ways agree (`lookup_agrees`), also where names share a hash.
-/
import Lambutter.DirRecords
import Lambutter.Reference

open Ranges SearchTree

/-- The index items of a directory, in key order. -/
def indexItems (n : ℕ) (t : Tree DiskKey TreeBlock n) (objectid : ℕ) : List Located :=
  (located n t).filter fun x => isOf objectid dirIndexKey x.2

/-- The data of the item are these records, back to back. -/
def Holds (env : Env) (x : Located) (records : List DirRecord) : Prop :=
  x.1.leafItemData env x.2 = .ok (records.flatMap DirRecord.pack)

section Listing

variable (env : Env) (trees : Trees) (dir : Inode) (g : (q : ReadReq) → Ans q)

/-- What a record of `dir` leads to, when read from a leaf at `leafBytenr`. -/
def targetOf (r : DirRecord) (leafBytenr : ℕ) : Outcome Inode :=
  (entryTarget env trees dir r.name r.location leafBytenr).run g

/-- The entry listed for the record `r`. -/
def DirRecord.listed (r : DirRecord) (inode : Inode) : DirEntry where
  name := r.name
  inodeNumber := r.location.objectid
  kindByte := r.ty.toNat
  inode := inode

/-- `e` lists the one record of an index item, with what it leads to. -/
def ListedAs (x : Located) (e : DirEntry) : Prop :=
  ∃ r : DirRecord, Holds env x [r] ∧ r.Plain ∧
    ∃ inode, targetOf env trees dir g r x.1.header.bytenr = .ok inode ∧ e = r.listed inode

/-- The entry that the loop makes of an index item. -/
def entryAt (x : Located) : Outcome DirEntry := do
  let data ← x.1.leafItemData env x.2
  let parsed ← DiskDirEntry.parse env data 0
  let (entry, _) ← okOr parsed (.corruptBtree "dir_index_short" x.1.header.bytenr)
  if entry.ty &&& ftEncrypted ≠ 0 then err (.unsupportedFeature "feat_encryption")
  else do
    let inode ← (entryTarget env trees dir entry.name entry.location x.1.header.bytenr).run g
    return { name := entry.name, inodeNumber := entry.location.objectid, kindByte := entry.ty,
             inode }

end Listing

theorem mapM_eq_ok {ε α β : Type} {f : α → Except ε β} {xs : List α} {ys : List β} :
    xs.mapM f = .ok ys ↔ List.Forall₂ (fun x y => f x = .ok y) xs ys := by
  induction xs generalizing ys with
  | nil =>
    rw [List.mapM_nil, List.forall₂_nil_left_iff]
    constructor
    · intro h
      cases h
      rfl
    · rintro rfl
      rfl
  | cons x xs ih =>
    rw [List.mapM_cons, List.forall₂_cons_left_iff]
    constructor
    · intro h
      obtain ⟨y, hy, h⟩ := Except.bind_eq_ok.mp h
      obtain ⟨rest, hrest, h⟩ := Except.bind_eq_ok.mp h
      cases h
      exact ⟨y, rest, hy, ih.mp hrest, rfl⟩
    · rintro ⟨y, rest, hy, hrest, rfl⟩
      rw [hy, Except.ok_bind, ih.mpr hrest]
      rfl

theorem exists_forall₂ {α β : Type} {R : α → β → Prop} {xs : List α} (h : ∀ x ∈ xs, ∃ y, R x y) :
    ∃ ys, List.Forall₂ R xs ys := by
  induction xs with
  | nil => exact ⟨[], .nil⟩
  | cons x xs ih =>
    obtain ⟨y, hy⟩ := h x (by simp)
    obtain ⟨ys, hys⟩ := ih fun x' hx' => h x' (by simp [hx'])
    exact ⟨y :: ys, .cons hy hys⟩

/-! ### The loop -/

section Loop

variable {env : Env} {trees : Trees} {dir : Inode} {g : (q : ReadReq) → Ans q}

theorem readDir_step (x : Located) (out : List DirEntry) :
    (readDir.walk env trees dir).step g x out =
      if isOf dir.objectid dirIndexKey x.2 then do
        let e ← entryAt env trees dir g x
        return .more (out ++ [e]) x.2.key.next
      else .ok (.leave out) := by
  unfold Walk.step readDir.walk entryAt
  dsimp only
  by_cases hmine : isOf dir.objectid dirIndexKey x.2 = true
  · have hnot : ¬(x.2.key.objectid ≠ dir.objectid ∨ x.2.key.itemType ≠ dirIndexKey) := by
      rw [isOf_iff] at hmine
      tauto
    rw [if_neg hnot, if_pos hmine]
    simp only [Prog.run_bind, Prog.run_liftM, bind_assoc]
    refine congrArg _ (funext fun data => congrArg _ (funext fun parsed =>
      congrArg _ (funext fun entry => ?_)))
    split_ifs
    · rfl
    · simp only [Prog.run_bind, Prog.run_pure, bind_assoc]
      rfl
  · have hforeign : x.2.key.objectid ≠ dir.objectid ∨ x.2.key.itemType ≠ dirIndexKey := by
      rw [isOf_iff] at hmine
      tauto
    rw [if_pos hforeign, if_neg hmine]
    rfl

/-- With fixed answers the listing loop folds over the directory's index items. -/
theorem readDir_steady : (readDir.walk env trees dir).Steady env trees.chunkMap
    (isOf dir.objectid dirIndexKey) g fun _ => True where
  found _ _ _ := rfl
  proceed _ _ := rfl
  foreign leaf item out hmine := by
    have hstep := @readDir_step env trees dir g (leaf, item) out
    rwa [if_neg (by simp [hmine])] at hstep
  more leaf item out out' next _ _ _ hmine _ h := by
    have hstep := @readDir_step env trees dir g (leaf, item) out
    rw [if_pos hmine] at hstep
    obtain ⟨e, -, he⟩ := Except.bind_eq_ok.mp (hstep.symm.trans h)
    cases he
    exact ⟨trivial, rfl⟩

/-- A fold of the loop's body makes one entry per item. -/
theorem readDir_fold {xs : List Located}
    (hxs : ∀ x ∈ xs, isOf dir.objectid dirIndexKey x.2 = true) (out : List DirEntry) :
    fold ((readDir.walk env trees dir).step g) xs .ok out =
      (out ++ ·) <$> xs.mapM (entryAt env trees dir g) := by
  induction xs generalizing out with
  | nil => rw [fold, List.mapM_nil, map_pure, List.append_nil]; rfl
  | cons x xs ih =>
    have hx := hxs x (by simp)
    rw [fold, readDir_step, if_pos hx, List.mapM_cons]
    cases entryAt env trees dir g x with
    | error e => rfl
    | ok e =>
      simp only [Except.ok_bind, map_bind, map_pure]
      have hrest := ih (fun y hy => hxs y (by simp [hy])) (out ++ [e])
      refine hrest.trans ?_
      cases xs.mapM (entryAt env trees dir g) with
      | error e' => rfl
      | ok es =>
        show Except.ok (out ++ [e] ++ es) = Except.ok (out ++ e :: es)
        rw [List.append_assoc, List.singleton_append]

variable (h64 : env.usizeBits = 64)

include h64

/-- On a well-formed tree a listing goes through the directory's index items. -/
theorem readDir_run {n : ℕ} (hn : n ≤ maxTreeDepth) {t : Tree DiskKey TreeBlock n}
    (htree : TreeAt (blockAt env trees.chunkMap trees.nodesize g) n t dir.treeRoot)
    (hino : dir.objectid < 2 ^ 64) :
    (readDir env trees dir).run g =
      (indexItems n t dir.objectid).mapM (entryAt env trees dir g) := by
  have hrun := Walk.run_eq h64 trees.validNodesize (@readDir_steady env trees dir g) Walk.fuel
    (entriesFrom dir.objectid) [] trivial
  have hitems := passes_items h64 trees.validNodesize g hn htree hino
    (show dirIndexKey < 2 ^ 8 by decide)
  change passes env trees.chunkMap (readDir.walk env trees dir).nodesize
    (readDir.walk env trees dir).root _ g _ (entriesFrom dir.objectid) = _ at hitems
  rw [hitems] at hrun
  have hfold := @readDir_fold env trees dir g (indexItems n t dir.objectid)
    (fun x hx => (List.mem_filter.mp hx).2) []
  refine (hrun.trans hfold).trans ?_
  cases (indexItems n t dir.objectid).mapM (entryAt env trees dir g) <;> rfl

/-- The entry of an index item, from the record it holds. -/
theorem entryAt_eq {x : Located} {r : DirRecord} (hr : Holds env x [r]) :
    entryAt env trees dir g x =
      if r.Plain then r.listed <$> targetOf env trees dir g r x.1.header.bytenr
      else err (.unsupportedFeature "feat_encryption") := by
  have hdata : x.1.leafItemData env x.2 = .ok r.pack := by
    rw [hr, List.flatMap_singleton]
  have hparse : DiskDirEntry.parse env r.pack 0 = .ok (some (r.entry, 0 + r.pack.length)) :=
    parse_pack h64 (by decide) (List.append_nil _).symm
  unfold entryAt
  rw [hdata, Except.ok_bind, hparse, Except.ok_bind]
  show (if r.ty.toNat &&& ftEncrypted ≠ 0 then _ else _) = _
  by_cases hplain : r.Plain
  · rw [if_pos hplain, if_neg fun h : r.ty.toNat &&& ftEncrypted ≠ 0 => h hplain]
    exact bind_pure_comp _ _
  · have hcipher : r.ty.toNat &&& ftEncrypted ≠ 0 := hplain
    rw [if_neg hplain, if_pos hcipher]

end Loop

/-! ### Lookups -/

section Lookup

variable {env : Env} {trees : Trees} {dir : Inode} {g : (q : ReadReq) → Ans q}

/-- Where a record leads does not depend on the leaf it was read from; that leaf is
named in an error only. -/
theorem targetOf_leaf {r r' : DirRecord} (hname : r'.name = r.name)
    (hloc : r'.location = r.location) {l : ℕ} {inode : Inode}
    (h : targetOf env trees dir g r l = .ok inode) (l' : ℕ) :
    targetOf env trees dir g r' l' = .ok inode := by
  unfold targetOf entryTarget at h ⊢
  rw [hname, hloc]
  split_ifs at h ⊢ with h1 h2
  · exact h
  · exact h
  · exact absurd h err_ne_ok

/-- The record of a name among those that share its hash. -/
def recordOf (name : List UInt8) (bucket : List DirRecord) : Option DirRecord :=
  bucket.find? fun r => r.name == name

theorem recordOf_eq_some {name : List UInt8} {bucket : List DirRecord} {r : DirRecord}
    (h : recordOf name bucket = some r) : r ∈ bucket ∧ r.name = name :=
  ⟨List.mem_of_find?_eq_some h, by simpa using List.find?_some h⟩

theorem recordOf_eq_none {name : List UInt8} {bucket : List DirRecord} :
    recordOf name bucket = none ↔ ∀ r ∈ bucket, r.name ≠ name := by
  simp [recordOf]

/-- The hashed item of a name. -/
def hashKey (objectid : ℕ) (name : List UInt8) : DiskKey := ⟨objectid, dirItemKey, nameHash name⟩

variable (h64 : env.usizeBits = 64) {n : ℕ} (hn : n ≤ maxTreeDepth)
  {t : Tree DiskKey TreeBlock n}
  (htree : TreeAt (blockAt env trees.chunkMap trees.nodesize g) n t dir.treeRoot)

include h64 hn htree

/-- A name whose hash has no item is not found. -/
theorem lookupInDir_absent {name : List UInt8}
    (h : ∀ x ∈ located n t, x.2.key ≠ hashKey dir.objectid name) :
    (lookupInDir env trees dir name).run g = err .notFound := by
  obtain ⟨r, hrun, -, hsome⟩ := run_findExact h64 trees.validNodesize g hn htree
    (hashKey dir.objectid name)
  unfold lookupInDir
  rw [Prog.run_bind]
  change (findExact env trees.chunkMap trees.nodesize dir.treeRoot
    (hashKey dir.objectid name)).run g
    >>= _ = _
  rw [hrun, Except.ok_bind]
  rcases r with _ | ⟨leaf, i⟩
  · rfl
  · obtain ⟨hleaf, x, -, hx, hkey⟩ := hsome leaf i rfl
    exact absurd hkey (h (leaf, x) (List.mem_flatMap.mpr ⟨leaf, hleaf, List.mem_map_of_mem hx⟩))

/-- A name whose hash has an item leads where its record among the packed ones does. -/
theorem lookupInDir_bucket {name : List UInt8} {x : Located} (hx : x ∈ located n t)
    (hkey : x.2.key = hashKey dir.objectid name) {bucket : List DirRecord}
    (hheld : Holds env x bucket) (hplain : ∀ r ∈ bucket, r.Plain) :
    (lookupInDir env trees dir name).run g = (recordOf name bucket).elim (err .notFound)
      fun r => targetOf env trees dir g r x.1.header.bytenr := by
  have hacc : ∀ l b, blockAt env trees.chunkMap trees.nodesize g l = .ok b → b.Accepted :=
    blocks_accepted h64 trees.validNodesize g
  obtain ⟨r, hrun, hnone, hsome⟩ := run_findExact h64 trees.validNodesize g hn htree
    (hashKey dir.objectid name)
  unfold lookupInDir
  rw [Prog.run_bind]
  change (findExact env trees.chunkMap trees.nodesize dir.treeRoot
    (hashKey dir.objectid name)).run g
    >>= _ = _
  rw [hrun, Except.ok_bind]
  rcases r with _ | ⟨leaf, i⟩
  · refine absurd hkey (hnone rfl x.2 ?_)
    rw [← located_snd]
    exact List.mem_map_of_mem hx
  obtain ⟨hleaf, item, hget, hitem, hitemKey⟩ := hsome leaf i rfl
  -- a key belongs to one item
  obtain rfl : x = (leaf, item) := located_unique h64 trees.validNodesize g htree hx
    (List.mem_flatMap.mpr ⟨leaf, hleaf, List.mem_map_of_mem hitem⟩) (hkey.trans hitemKey.symm)
  have hlen := (htree.leaf_accepted hacc hleaf).1.leafItemData_length hheld
  have hmax : maxNodeSize = 65536 := rfl
  have hcount := DirRecord.length_le_flatMap_pack bucket
  have hscan : findEntry env (bucket.flatMap DirRecord.pack) leaf.header.bytenr
      (fun entry => if entry.ty &&& ftEncrypted ≠ 0 then
          err (.unsupportedFeature "feat_encryption") else .ok (entry.name == name))
      ((bucket.flatMap DirRecord.pack).length + 1) 0 =
        .ok ((recordOf name bucket).map DirRecord.entry) := by
    refine findEntry_pack h64 (fun r hr => ?_) _ _ (by omega) (by omega) rfl
    exact if_neg fun h => h (hplain r hr)
  dsimp only
  simp only [Prog.run_bind, Prog.run_liftM]
  rw [hget, Except.ok_bind, hheld, Except.ok_bind, hscan, Except.ok_bind]
  cases hfound : recordOf name bucket with
  | none => rfl
  | some r =>
    obtain ⟨-, rfl⟩ := recordOf_eq_some hfound
    rfl

end Lookup

/-! ### A complete listing -/

section Complete

variable {env : Env} {trees : Trees} {dir : Inode} {g : (q : ReadReq) → Ans q}
  (h64 : env.usizeBits = 64) {n : ℕ} (hn : n ≤ maxTreeDepth) {t : Tree DiskKey TreeBlock n}
  (htree : TreeAt (blockAt env trees.chunkMap trees.nodesize g) n t dir.treeRoot)
  (hino : dir.objectid < 2 ^ 64)

include h64 htree

/-- Index items ascend by their index. -/
theorem indexItems_sorted : (indexItems n t dir.objectid).Pairwise fun x y =>
    x.2.key.offset < y.2.key.offset := by
  have hsorted := (located_sorted h64 trees.validNodesize g htree).filter
    fun x => isOf dir.objectid dirIndexKey x.2
  refine List.Pairwise.imp_of_mem (fun {x y} hx hy hlt => ?_) hsorted
  obtain ⟨hx1, hx2⟩ := isOf_iff.mp (List.mem_filter.mp hx).2
  obtain ⟨hy1, hy2⟩ := isOf_iff.mp (List.mem_filter.mp hy).2
  rcases DiskKey.lt_iff.mp hlt with h | ⟨-, h | ⟨-, h⟩⟩
  · omega
  · omega
  · exact h

include hn hino

/-- A directory whose index items each hold one entry that leads somewhere is listed
completely: one entry for each item, in ascending index order. -/
theorem readDir_complete (hheld : ∀ x ∈ indexItems n t dir.objectid, ∃ r : DirRecord,
      Holds env x [r] ∧ r.Plain ∧
        ∃ inode, targetOf env trees dir g r x.1.header.bytenr = .ok inode) :
    ∃ list, (readDir env trees dir).run g = .ok list ∧
      List.Forall₂ (ListedAs env trees dir g) (indexItems n t dir.objectid) list ∧
      (indexItems n t dir.objectid).Pairwise fun x y => x.2.key.offset < y.2.key.offset := by
  have hentry : ∀ x ∈ indexItems n t dir.objectid, ∃ e, entryAt env trees dir g x = .ok e ∧
      ListedAs env trees dir g x e := by
    intro x hx
    obtain ⟨r, hr, hplain, inode, htarget⟩ := hheld x hx
    refine ⟨r.listed inode, ?_, r, hr, hplain, inode, htarget, rfl⟩
    rw [entryAt_eq h64 hr, if_pos hplain, htarget]
    rfl
  obtain ⟨list, hlist⟩ := exists_forall₂ hentry
  refine ⟨list, ?_, hlist.imp fun _ _ h => h.2, indexItems_sorted h64 htree⟩
  rw [readDir_run h64 hn htree hino]
  exact mapM_eq_ok.mpr (hlist.imp fun _ _ h => h.1)

end Complete

/-! ### Listing and lookup agree -/

/-- What an entry is in either index: its name, where it leads, and its type. -/
def DirRecord.body (r : DirRecord) : List UInt8 × DiskKey × UInt8 := (r.name, r.location, r.ty)

/-- The entries of a directory have distinct names, and both indexes record them: the
index items one by one, the hashed items all that share a hash in one, in any order. -/
structure Recorded (env : Env) (n : ℕ) (t : Tree DiskKey TreeBlock n) (objectid : ℕ)
    (records : List DirRecord) : Prop where
  names : (records.map DirRecord.name).Nodup
  index : List.Forall₂ (fun x r => Holds env x [r]) (indexItems n t objectid) records
  buckets : ∀ x ∈ located n t, isOf objectid dirItemKey x.2 = true →
    ∃ bucket, Holds env x bucket ∧ (bucket.map DirRecord.body).Perm
      ((records.filter fun r => nameHash r.name == x.2.key.offset).map DirRecord.body)
  hashed : ∀ r ∈ records, ∃ x ∈ located n t, x.2.key = hashKey objectid r.name

section Agree

variable {env : Env} {trees : Trees} {dir : Inode} {g : (q : ReadReq) → Ans q}
  (h64 : env.usizeBits = 64) {n : ℕ} (hn : n ≤ maxTreeDepth) {t : Tree DiskKey TreeBlock n}
  (htree : TreeAt (blockAt env trees.chunkMap trees.nodesize g) n t dir.treeRoot)
  (hino : dir.objectid < 2 ^ 64) {records : List DirRecord}
  (hdir : Recorded env n t dir.objectid records)

include hdir

/-- Two entries of one name are one. -/
theorem Recorded.unique {r r' : DirRecord} (hr : r ∈ records) (hr' : r' ∈ records)
    (h : r.name = r'.name) : r = r' :=
  List.inj_on_of_nodup_map hdir.names hr hr' h

omit hdir in
/-- Every record of a hashed item is one of the directory's. -/
theorem Recorded.of_bucket {x : Located} {bucket : List DirRecord}
    (hperm : (bucket.map DirRecord.body).Perm
      ((records.filter fun r => nameHash r.name == x.2.key.offset).map DirRecord.body))
    {r' : DirRecord} (hr' : r' ∈ bucket) : ∃ r ∈ records, r'.body = r.body := by
  obtain ⟨r, hr, hbody⟩ := List.mem_map.mp (hperm.subset (List.mem_map_of_mem hr'))
  exact ⟨r, (List.mem_filter.mp hr).1, hbody.symm⟩

include h64 hn htree hino

/-- What a listing that returns has seen of the records. -/
theorem Recorded.listing {list : List DirEntry} (hlist : (readDir env trees dir).run g = .ok list) :
    List.Forall₂ (fun r e => r.Plain ∧ e.name = r.name ∧
      ∃ l, targetOf env trees dir g r l = .ok e.inode) records list := by
  rw [readDir_run h64 hn htree hino] at hlist
  have hentries := mapM_eq_ok.mp hlist
  have hindex := hdir.index
  generalize indexItems n t dir.objectid = xs at hentries hindex
  clear hlist hdir
  induction hindex generalizing list with
  | nil =>
    cases hentries
    exact .nil
  | cons hr _ ih =>
    obtain ⟨e, rest, he, hrest, rfl⟩ := List.forall₂_cons_left_iff.mp hentries
    refine .cons ?_ (ih hrest)
    rw [entryAt_eq h64 hr] at he
    split_ifs at he with hplain
    · obtain ⟨inode, htarget, he⟩ := Except.bind_eq_ok.mp he
      cases he
      exact ⟨hplain, rfl, _, htarget⟩
    · exact absurd he err_ne_ok

/-- After a listing that returns, a lookup finds what is listed and nothing else,
however many names share a hash. -/
theorem lookup_agrees {list : List DirEntry} (hlist : (readDir env trees dir).run g = .ok list)
    (name : List UInt8) :
    (∀ e ∈ list, e.name = name → (lookupInDir env trees dir name).run g = .ok e.inode) ∧
    ((∀ e ∈ list, e.name ≠ name) → (lookupInDir env trees dir name).run g = err .notFound) := by
  have hlisting := hdir.listing h64 hn htree hino hlist
  have hplain : ∀ r ∈ records, r.Plain := by
    intro r hr
    obtain ⟨i, hi⟩ := List.getElem?_of_mem hr
    obtain ⟨e, -, hplain, -⟩ := forall₂_getElem? hlisting.flip hi
    exact hplain
  by_cases hitem : ∃ x ∈ located n t, x.2.key = hashKey dir.objectid name
  · obtain ⟨x, hx, hkey⟩ := hitem
    obtain ⟨bucket, hheld, hperm⟩ := hdir.buckets x hx (by rw [isOf_iff, hkey]; exact ⟨rfl, rfl⟩)
    have hbucket : ∀ r' ∈ bucket, ∃ r ∈ records, r'.body = r.body := fun r' hr' =>
      Recorded.of_bucket hperm hr'
    have hrun := lookupInDir_bucket h64 hn htree hx hkey hheld fun r' hr' => by
      obtain ⟨r, hr, hbody⟩ := hbucket r' hr'
      have hty : r'.ty = r.ty := congrArg (fun b => b.2.2) hbody
      exact (congrArg (fun ty : UInt8 => ty.toNat &&& ftEncrypted) hty).trans (hplain r hr)
    rw [hrun]
    constructor
    · intro e he hname
      obtain ⟨i, hi⟩ := List.getElem?_of_mem he
      obtain ⟨r, hri, -, hrname, l, htarget⟩ := forall₂_getElem? hlisting hi
      have hr : r ∈ records := List.mem_of_getElem? hri
      have hmem : r.body ∈ bucket.map DirRecord.body := by
        refine hperm.symm.subset (List.mem_map_of_mem (List.mem_filter.mpr ⟨hr, ?_⟩))
        rw [hkey, ← hname, hrname]
        exact beq_self_eq_true _
      obtain ⟨r₁, hr₁, hbody₁⟩ := List.mem_map.mp hmem
      cases hfound : recordOf name bucket with
      | none =>
        have hname₁ : r₁.name = name :=
          (congrArg (fun b => b.1) hbody₁).trans (hrname.symm.trans hname)
        exact absurd hname₁ (recordOf_eq_none.mp hfound r₁ hr₁)
      | some r₂ =>
        -- the record found need not be the one listed, but it is the same entry
        obtain ⟨hr₂, hname₂⟩ := recordOf_eq_some hfound
        obtain ⟨r₃, hr₃, hbody₃⟩ := hbucket r₂ hr₂
        have hname₃ : r₂.name = r₃.name := congrArg (fun b => b.1) hbody₃
        obtain rfl : r₃ = r := hdir.unique hr₃ hr
          (hname₃.symm.trans (hname₂.trans (hname.symm.trans hrname)))
        exact targetOf_leaf hname₃ (congrArg (fun b => b.2.1) hbody₃) htarget _
    · intro hnone
      cases hfound : recordOf name bucket with
      | none => rfl
      | some r₂ =>
        obtain ⟨hr₂, hname₂⟩ := recordOf_eq_some hfound
        obtain ⟨r₃, hr₃, hbody₃⟩ := hbucket r₂ hr₂
        obtain ⟨i, hi⟩ := List.getElem?_of_mem hr₃
        obtain ⟨e, hei, -, hename, -⟩ := forall₂_getElem? hlisting.flip hi
        have hname₃ : r₂.name = r₃.name := congrArg (fun b => b.1) hbody₃
        exact absurd (hename.trans (hname₃.symm.trans hname₂)) (hnone e (List.mem_of_getElem? hei))
  · have habsent : ∀ x ∈ located n t, x.2.key ≠ hashKey dir.objectid name :=
      fun x hx hkey => hitem ⟨x, hx, hkey⟩
    refine ⟨fun e he hname => ?_, fun _ => lookupInDir_absent h64 hn htree habsent⟩
    obtain ⟨i, hi⟩ := List.getElem?_of_mem he
    obtain ⟨r, hri, -, hrname, -⟩ := forall₂_getElem? hlisting hi
    obtain ⟨x, hx, hkey⟩ := hdir.hashed r (List.mem_of_getElem? hri)
    rw [← hrname, hname] at hkey
    exact absurd hkey (habsent x hx)

end Agree

/-! ### Directories with known items -/

/-- The item of a hash packs the records of that hash, in the order that `bucket` has. -/
def PacksHash (records : List DirRecord) (bucket : ℕ → List DirRecord)
    (y : DiskKey × List UInt8) : Prop :=
  y.2 = (bucket y.1.offset).flatMap DirRecord.pack ∧
    ((bucket y.1.offset).map DirRecord.body).Perm
      ((records.filter fun r => nameHash r.name == y.1.offset).map DirRecord.body)

instance (records : List DirRecord) (bucket : ℕ → List DirRecord) (y : DiskKey × List UInt8) :
    Decidable (PacksHash records bucket y) :=
  inferInstanceAs (Decidable (_ ∧ _))

/-- The items are those of a directory with these records. -/
def RecordItems (items : List (DiskKey × List UInt8)) (dir : ℕ) (records : List DirRecord)
    (bucket : ℕ → List DirRecord) : Prop :=
  (records.map DirRecord.name).Nodup ∧
    (items.filter fun y => y.1.objectid == dir && y.1.itemType == dirIndexKey).map Prod.snd =
      records.map DirRecord.pack ∧
    (∀ y ∈ items, y.1.objectid = dir → y.1.itemType = dirItemKey → PacksHash records bucket y) ∧
    ∀ r ∈ records, ∃ y ∈ items, y.1 = hashKey dir r.name

instance (items : List (DiskKey × List UInt8)) (dir : ℕ) (records : List DirRecord)
    (bucket : ℕ → List DirRecord) : Decidable (RecordItems items dir records bucket) :=
  inferInstanceAs (Decidable (_ ∧ _))

theorem TreeHolds.recorded {env : Env} {n : ℕ} {t : Tree DiskKey TreeBlock n}
    {items : List (DiskKey × List UInt8)} (h : TreeHolds env n t items) {dir : ℕ}
    {records : List DirRecord} {bucket : ℕ → List DirRecord}
    (hdir : RecordItems items dir records bucket) : Recorded env n t dir records where
  names := hdir.1
  index := by
    have hdata : (indexItems n t dir).map (fun x => x.1.leafItemData env x.2) =
        records.map fun r => .ok r.pack := by
      have hfiltered := congrArg (List.map Prod.snd) (h.filtered fun key =>
        key.objectid == dir && key.itemType == dirIndexKey)
      rw [List.map_map, List.map_map] at hfiltered
      refine hfiltered.trans ?_
      have hpacks := congrArg (List.map (@Except.ok Stop _)) hdir.2.1
      rwa [List.map_map, List.map_map] at hpacks
    have hall := List.forall₂_map_left_iff.mp (List.forall₂_map_right_iff.mp
      (List.forall₂_eq_eq_eq ▸ hdata))
    refine hall.imp fun x r h => ?_
    rw [Holds, List.flatMap_singleton]
    exact h
  buckets x hx hmine := by
    obtain ⟨hoid, hty⟩ := isOf_iff.mp hmine
    obtain ⟨y, hy, hkey, hdata⟩ := h.item hx
    rw [hkey] at hoid hty ⊢
    obtain ⟨hpack, hperm⟩ := hdir.2.2.1 y hy hoid hty
    exact ⟨_, hdata.trans (congrArg _ hpack), hperm⟩
  hashed r hr := by
    obtain ⟨y, hy, hkey⟩ := hdir.2.2.2 r hr
    obtain ⟨x, hx, hxy, -⟩ := h.exists_item hy
    exact ⟨x, hx, hxy.trans hkey⟩

section Led

variable {env : Env} {trees : Trees} {dir : Inode} {g : (q : ReadReq) → Ans q} {n : ℕ}
  {t : Tree DiskKey TreeBlock n} {records : List DirRecord} {targets : List Inode}
  (hdir : Recorded env n t dir.objectid records) (hplain : ∀ r ∈ records, r.Plain)
  (htargets : ∀ l, List.Forall₂ (fun r inode => targetOf env trees dir g r l = .ok inode)
    records targets)

include hdir hplain htargets

/-- Records that lead somewhere are what a listing asks for. -/
theorem Recorded.leads : ∀ x ∈ indexItems n t dir.objectid, ∃ r : DirRecord,
    Holds env x [r] ∧ r.Plain ∧
      ∃ inode, targetOf env trees dir g r x.1.header.bytenr = .ok inode := by
  intro x hx
  obtain ⟨i, hi⟩ := List.getElem?_of_mem hx
  obtain ⟨r, hri, hheld⟩ := forall₂_getElem? hdir.index.flip hi
  have hr : r ∈ records := List.mem_of_getElem? hri
  obtain ⟨j, hj⟩ := List.getElem?_of_mem hr
  obtain ⟨inode, -, htarget⟩ := forall₂_getElem? (htargets x.1.header.bytenr).flip hj
  exact ⟨r, hheld, hplain r hr, inode, htarget⟩

/-- The listing, record by record. -/
theorem Recorded.run_readDir (h64 : env.usizeBits = 64) (hn : n ≤ maxTreeDepth)
    (htree : TreeAt (blockAt env trees.chunkMap trees.nodesize g) n t dir.treeRoot)
    (hino : dir.objectid < 2 ^ 64) :
    (readDir env trees dir).run g = .ok (List.zipWith DirRecord.listed records targets) := by
  rw [readDir_run h64 hn htree hino, mapM_eq_ok]
  have hindex := hdir.index
  generalize indexItems n t dir.objectid = xs at hindex
  clear hdir
  induction hindex generalizing targets with
  | nil =>
    cases htargets 0
    exact .nil
  | @cons x r xs records hr hrest ih =>
    cases targets with
    | nil => cases htargets 0
    | cons inode targets =>
      have htarget := (List.forall₂_cons.mp (htargets x.1.header.bytenr)).1
      refine .cons ?_ (ih (fun r' hr' => hplain r' (List.mem_cons_of_mem _ hr')) fun l =>
        (List.forall₂_cons.mp (htargets l)).2)
      rw [entryAt_eq h64 hr, if_pos (hplain r List.mem_cons_self), htarget]
      rfl

end Led

/-! ### The sample directories -/

theorem sampleName_lt : ([115] : List UInt8).length < 2 ^ 16 := by decide

/-- Two files whose names share a hash, the second with a tail of two bytes, and a
subvolume. -/
def topRecords : List DirRecord :=
  [{ objectid := 257, itemType := 1, offset := 0, transid := 7, ty := 1,
     name := [97, 50, 48, 113, 115, 114], data := [], name_lt := by decide, data_lt := by decide },
   { objectid := 256, itemType := 132, offset := 0xffffffffffffffff, transid := 7, ty := 2,
     name := [115], data := [], name_lt := sampleName_lt, data_lt := by decide },
   { objectid := 258, itemType := 1, offset := 0, transid := 7, ty := 1,
     name := [109, 57, 111, 120, 100, 56], data := [122, 122], name_lt := by decide,
     data_lt := by decide }]

/-- The sample records at these positions. -/
def pick (positions : List ℕ) : List DirRecord := positions.filterMap (topRecords[·]?)

def recordItem (itemType offset : ℕ) (positions : List ℕ) : SampleItem :=
  let bytes := (pick positions).flatMap DirRecord.pack
  (⟨256, itemType, offset⟩, bytes.length, [(0, leValue bytes)])

/-- A directory with the three entries, the index numbers 4 to 6 deleted. -/
def topItems : List SampleItem :=
  [recordItem dirItemKey 0x1113aca4 [2, 0], recordItem dirItemKey 0x3d218854 [1],
   recordItem dirIndexKey 2 [0], recordItem dirIndexKey 3 [1], recordItem dirIndexKey 7 [2]]

/-- A directory with the subvolume's entry only. -/
def innerItems : List SampleItem :=
  [recordItem dirItemKey 0x3d218854 [1], recordItem dirIndexKey 2 [1]]

/-- Subvolume 5 links subvolume 256 as the entry `s` of its top directory. -/
def rootItems : List SampleItem :=
  [(⟨5, rootItemKey, 0⟩, 239, [(176, 0x101000), (216, 1)]),
   (⟨5, rootRefKey, 256⟩, 19, [(0, 256), (8, 3), (16, 1), (18, 115)]),
   (⟨256, rootItemKey, 0⟩, 239, [(176, 0x102000), (216, 1)])]

def forestRootPage : ℕ := image (leafFields 0 4096 1107544773 0x100000 rootItems)

def forestTopPage : ℕ := image (leafFields 0 4096 3803515382 0x101000 topItems)

def forestInnerPage : ℕ := image (leafFields 0 4096 688029819 0x102000 innerItems)

/-- The root tree, the tree of the top level and the tree of the subvolume. -/
def forestVolume : SliceDevice :=
  .ofPages [(1, forestRootPage), (4, forestTopPage), (5, forestInnerPage)] 0x8000 sampleSize_lt

set_option maxRecDepth 100000 in
theorem forest_pages : LeafPage referenceEnv forestRootPage 0x100000 rootItems ∧
    LeafPage referenceEnv forestTopPage 0x101000 topItems ∧
    LeafPage referenceEnv forestInnerPage 0x102000 innerItems := by
  decide +kernel

/-- A tree of that volume that is one leaf. -/
theorem forest_at {k page logical : ℕ} {items : List SampleItem}
    (hpage : [(1, forestRootPage), (4, forestTopPage), (5, forestInnerPage)].lookup k = some page)
    (hin : 4096 * k + 4096 ≤ 0x8000)
    (hresolve : (fun r => (r.physical, decide (4096 ≤ r.contiguousBytes))) <$>
      sampleMap.resolve referenceEnv logical = .ok (4096 * k, true))
    (h : LeafPage referenceEnv page logical items) :
    TreeAt (blockAt referenceEnv sampleMap 4096 forestVolume.device.answer) 0
      (.leaf (pageBlock page)) logical :=
  ⟨_, rfl, blockAt_page referenceEnv_usize64 sampleSize_lt hpage hin hresolve h.1, h.level⟩

def sampleTrees : Trees where
  chunkMap := sampleMap
  nodesize := 4096
  rootTreeRoot := 0x100000
  validNodesize := sampleNodesize

def topDir : Inode := { subvol := 5, treeRoot := 0x101000, objectid := 256 }

def rootLeaf : TreeBlock := pageBlock forestRootPage

def topLeaf : TreeBlock := pageBlock forestTopPage

def innerLeaf : TreeBlock := pageBlock forestInnerPage

theorem rootTree_at : TreeAt (blockAt referenceEnv sampleMap 4096 forestVolume.device.answer) 0
    (.leaf rootLeaf) 0x100000 :=
  @forest_at 1 _ _ _ rfl (by decide) rfl (And.left forest_pages)

theorem topTree_at : TreeAt (blockAt referenceEnv sampleTrees.chunkMap sampleTrees.nodesize
    forestVolume.device.answer) 0 (.leaf topLeaf) topDir.treeRoot := by
  obtain ⟨-, htop, -⟩ := forest_pages
  exact @forest_at 4 forestTopPage 0x101000 _ rfl (by decide) rfl htop

theorem innerTree_at : TreeAt (blockAt referenceEnv sampleMap 4096 forestVolume.device.answer) 0
    (.leaf innerLeaf) 0x102000 := by
  obtain ⟨-, -, hinner⟩ := forest_pages
  exact @forest_at 5 _ _ _ rfl (by decide) rfl hinner

theorem rootTree_holds : TreeHolds referenceEnv 0 (.leaf rootLeaf) (storedItems rootItems) :=
  LeafPage.holds referenceEnv_usize64 (And.left forest_pages)

theorem topTree_holds : TreeHolds referenceEnv 0 (.leaf topLeaf) (storedItems topItems) := by
  obtain ⟨-, htop, -⟩ := forest_pages
  exact htop.holds referenceEnv_usize64

theorem innerTree_holds : TreeHolds referenceEnv 0 (.leaf innerLeaf) (storedItems innerItems) := by
  obtain ⟨-, -, hinner⟩ := forest_pages
  exact hinner.holds referenceEnv_usize64

/-- The records that share a hash, as the item of that hash packs them. -/
def sampleBucket (hash : ℕ) : List DirRecord :=
  if hash = 0x1113aca4 then pick [2, 0] else if hash = 0x3d218854 then pick [1] else []

theorem top_recorded :
    Recorded referenceEnv 0 (.leaf topLeaf) topDir.objectid topRecords := by
  have hitems : RecordItems (storedItems topItems) 256 topRecords sampleBucket := by
    decide +kernel
  exact TreeHolds.recorded topTree_holds hitems

/-- What the sample records lead to. -/
def sampleTargets : List Inode :=
  [{ topDir with objectid := 257 }, { subvol := 256, treeRoot := 0x102000, objectid := 256 },
   { topDir with objectid := 258 }]

/-- The reference that links the subvolume, and its root. -/
theorem rootTree_items :
    (⟨5, rootRefKey, 256⟩, leBytes 19 (image [(0, 256), (8, 3), (16, 1), (18, 115)])) ∈
      storedItems rootItems ∧
    (storedItems rootItems).filter (fun y =>
        y.1.objectid == 256 && y.1.itemType == rootItemKey) =
      [(⟨256, rootItemKey, 0⟩, leBytes 239 (image [(176, 0x102000), (216, 1)]))] ∧
    RootItem.readAt (leBytes 239 (image [(176, 0x102000), (216, 1)])) 0 = ⟨0x102000, 1⟩ := by
  decide +kernel

theorem sample_targets (l : ℕ) : List.Forall₂ (fun r inode =>
    targetOf referenceEnv sampleTrees topDir forestVolume.device.answer r l = .ok inode)
      topRecords sampleTargets := by
  obtain ⟨href, hroot, hfields⟩ := rootTree_items
  have hlinks : (rootRefLinks referenceEnv sampleTrees
      { parent := 5, dirid := 256, name := [115], child := 256 }).run
        forestVolume.device.answer = .ok true := by
    obtain ⟨leaf, i, item, hfind, hitem, hdata⟩ := TreeHolds.findExact_run rootTree_holds
      referenceEnv_usize64 sampleNodesize forestVolume.device.answer (by decide) rootTree_at href
    unfold rootRefLinks
    rw [Prog.run_bind]
    refine (congrArg (· >>= _) hfind).trans ?_
    rw [Except.ok_bind]
    simp only [Prog.run_bind, Prog.run_liftM]
    rw [hitem, Except.ok_bind, hdata]
    rfl
  have hsubvol : (subvolRoot referenceEnv sampleTrees 256).run forestVolume.device.answer =
      .ok { subvol := 256, treeRoot := 0x102000, objectid := 256 } := by
    obtain ⟨leaf, i, item, hfind, hitem, hkey, hdata⟩ := TreeHolds.findFirstGe_run rootTree_holds
      referenceEnv_usize64 sampleNodesize forestVolume.device.answer (by decide) rootTree_at
      (congrArg List.head? hroot)
    have hlook : (lookupRootItem referenceEnv sampleTrees 256).run forestVolume.device.answer =
        .ok (some ⟨0x102000, 1⟩) := by
      unfold lookupRootItem
      rw [Prog.run_bind]
      refine (congrArg (· >>= _) hfind).trans ?_
      rw [Except.ok_bind]
      simp only [Prog.run_bind, Prog.run_liftM]
      rw [hitem, Except.ok_bind, hkey, if_neg (by decide)]
      simp only [Prog.run_bind, Prog.run_liftM]
      rw [hdata, Except.ok_bind, RootItem.parse_eq referenceEnv_usize64,
        if_neg (by rw [length_leBytes]; decide), hfields]
      rfl
    unfold subvolRoot
    rw [Prog.run_bind, hlook]
    rfl
  refine .cons rfl (.cons ?_ (.cons rfl .nil))
  show (entryTarget referenceEnv sampleTrees topDir [115] ⟨256, rootItemKey, _⟩ l).run _ = _
  unfold entryTarget
  rw [if_neg (by decide), if_pos rfl]
  dsimp only
  rw [Prog.run_bind]
  refine (congrArg (· >>= _) hlinks).trans ?_
  rw [Except.ok_bind, if_pos rfl]
  exact hsubvol

theorem top_plain : ∀ r ∈ topRecords, r.Plain := by decide

theorem spreadNames_lt : ([97, 50, 48, 113, 115, 114] : List UInt8).length < 2 ^ 16 ∧
    ([109, 57, 111, 120, 100, 56] : List UInt8).length < 2 ^ 16 ∧
    ([122, 122] : List UInt8).length < 2 ^ 16 ∧ ([] : List UInt8).length < 2 ^ 16 := by decide

/-- The entries of the sample tree of two levels. -/
def spreadRecords : List DirRecord :=
  [{ objectid := 257, itemType := 1, offset := 0, transid := 7, ty := 1,
     name := [97, 50, 48, 113, 115, 114], data := [], name_lt := spreadNames_lt.1,
     data_lt := spreadNames_lt.2.2.2 },
   { objectid := 258, itemType := 1, offset := 0, transid := 7, ty := 7,
     name := [109, 57, 111, 120, 100, 56], data := [122, 122], name_lt := spreadNames_lt.2.1,
     data_lt := spreadNames_lt.2.2.1 }]

def spreadTrees : Trees where
  chunkMap := spreadMap
  nodesize := 4096
  rootTreeRoot := 0x100000
  validNodesize := sampleNodesize

def spreadDir : Inode := { subvol := 5, treeRoot := 0x100000, objectid := 256 }

def spreadTargets : List Inode :=
  [{ spreadDir with objectid := 257 }, { spreadDir with objectid := 258 }]

theorem spread_plain : ∀ r ∈ spreadRecords, r.Plain := by decide

theorem spread_recorded : Recorded referenceEnv 1 spreadTree spreadDir.objectid spreadRecords := by
  have hitems : RecordItems spreadItems 256 spreadRecords fun _ => spreadRecords.reverse := by
    decide +kernel
  exact TreeHolds.recorded spread_holds hitems

theorem spread_targets (l : ℕ) : List.Forall₂ (fun r inode =>
    targetOf referenceEnv spreadTrees spreadDir spreadVolume.device.answer r l = .ok inode)
      spreadRecords spreadTargets :=
  .cons rfl (.cons rfl .nil)

/-- The top directory is listed with its three entries, and a directory with an entry in
each of two leaves with both. -/
theorem readDir_sample :
    (∃ list, (readDir referenceEnv sampleTrees topDir).run forestVolume.device.answer = .ok list ∧
      list.map DirEntry.name = topRecords.map DirRecord.name) ∧
    ∃ list, (readDir referenceEnv spreadTrees spreadDir).run spreadVolume.device.answer =
      .ok list ∧ list.map DirEntry.name = [[97, 50, 48, 113, 115, 114],
        [109, 57, 111, 120, 100, 56]] := by
  have hnames : ∀ {records : List DirRecord} {list : List DirEntry}
      {P : DirRecord → DirEntry → Prop},
      List.Forall₂ (fun r e => r.Plain ∧ e.name = r.name ∧ P r e) records list →
        list.map DirEntry.name = records.map DirRecord.name := by
    intro records list P h
    induction h with
    | nil => rfl
    | cons hrow _ ih => rw [List.map_cons, List.map_cons, hrow.2.1, ih]
  constructor
  · obtain ⟨list, hrun, -⟩ := readDir_complete referenceEnv_usize64 (Nat.zero_le _) topTree_at
      (by decide) (Recorded.leads top_recorded top_plain sample_targets)
    exact ⟨list, hrun, hnames (Recorded.listing referenceEnv_usize64 (Nat.zero_le _) topTree_at
      (by decide) top_recorded hrun)⟩
  · obtain ⟨list, hrun, -⟩ := @readDir_complete referenceEnv spreadTrees spreadDir
      spreadVolume.device.answer referenceEnv_usize64 1 (by decide) spreadTree spread_at (by decide)
      (Recorded.leads spread_recorded spread_plain spread_targets)
    exact ⟨list, hrun, hnames (@Recorded.listing referenceEnv spreadTrees spreadDir
      spreadVolume.device.answer referenceEnv_usize64 1 (by decide) spreadTree spread_at (by decide)
      spreadRecords spread_recorded list hrun)⟩

/-- Both names of a shared hash are found where they are listed, a third is not. -/
theorem lookup_sample :
    (lookupInDir referenceEnv sampleTrees topDir [109, 57, 111, 120, 100, 56]).run
        forestVolume.device.answer = .ok { topDir with objectid := 258 } ∧
    (lookupInDir referenceEnv sampleTrees topDir [97, 50, 48, 113, 115, 114]).run
        forestVolume.device.answer = .ok { topDir with objectid := 257 } ∧
    (lookupInDir referenceEnv sampleTrees topDir [97]).run forestVolume.device.answer =
        err .notFound ∧
    (lookupInDir referenceEnv spreadTrees spreadDir [109, 57, 111, 120, 100, 56]).run
        spreadVolume.device.answer = .ok { spreadDir with objectid := 258 } := by
  have htop := lookup_agrees referenceEnv_usize64 (Nat.zero_le _) topTree_at (by decide)
    top_recorded (Recorded.run_readDir top_recorded top_plain sample_targets
      referenceEnv_usize64 (Nat.zero_le _) topTree_at (by decide))
  have hspread := @lookup_agrees referenceEnv spreadTrees spreadDir spreadVolume.device.answer
    referenceEnv_usize64 1 (by decide) spreadTree spread_at (by decide) spreadRecords
    spread_recorded _ (Recorded.run_readDir spread_recorded spread_plain spread_targets
      referenceEnv_usize64 (by decide) spread_at (by decide))
  refine ⟨?_, ?_, (htop _).2 (by decide), ?_⟩
  · exact (htop _).1 (DirRecord.listed (topRecords[2]) { topDir with objectid := 258 })
      (by decide) rfl
  · exact (htop _).1 (DirRecord.listed (topRecords[0]) { topDir with objectid := 257 })
      (by decide) rfl
  · exact (hspread _).1 (DirRecord.listed (spreadRecords[1]) { spreadDir with objectid := 258 })
      (by decide) rfl
