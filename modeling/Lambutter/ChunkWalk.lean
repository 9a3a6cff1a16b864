/-
The walk over the chunk tree finds every chunk.

The walk reads the tree through the map that it extends.  Extending a map keeps what it
resolves (`Keeps`), so a tree that can be read at the start can be read in every pass,
and is the same tree (`TreeAt.mono`); the passes then meet all its chunk items, and
each goes into the map unless the bootstrap has put it there before
(`populate_complete`).
-/
import Lambutter.Iteration
import Lambutter.Packing
import Mathlib.Data.List.Pairwise

open Ranges SearchTree

abbrev devItemsObjectid : ℕ := 1

abbrev devItemKey : ℕ := 216

/-- The objectid of every `CHUNK_ITEM`. -/
abbrev firstChunkTreeObjectid : ℕ := 256

/-- The data of a chunk's item: its record without the key. -/
def ChunkRecord.data (r : ChunkRecord) : List UInt8 := r.pack.drop DiskKey.size

/-- The chunk items of a tree, in key order. -/
def chunkItems (n : ℕ) (t : Tree DiskKey TreeBlock n) : List Located :=
  (located n t).filter fun x => isOf firstChunkTreeObjectid chunkItemKey x.2

/-- A chunk tree holds the devices and, each in one item, these chunks. -/
structure HoldsChunks (env : Env) (n : ℕ) (t : Tree DiskKey TreeBlock n)
    (records : List ChunkRecord) : Prop where
  kinds : ∀ x ∈ located n t, isOf devItemsObjectid devItemKey x.2 = true ∨
    isOf firstChunkTreeObjectid chunkItemKey x.2 = true
  chunks : List.Forall₂ (fun x r => x.2.key.offset = r.logical.toNat ∧
    x.1.leafItemData env x.2 = .ok r.data) (chunkItems n t) records
  disjoint : ChunkMap.Disjoint (records.map ChunkRecord.mapping)

/-! ### One item -/

section Harvest

variable {env : Env} (h64 : env.usizeBits = 64)

/-- A chunk's record is read back from its item. -/
theorem ChunkRecord.mapping_of_data (r : ChunkRecord) {key : DiskKey}
    (hkey : key.offset = r.logical.toNat) :
    chunkMapping key (ChunkItem.readAt r.data 0)
      (stripesAt r.data 0 (ChunkItem.readAt r.data 0).numStripes 0) = r.mapping := by
  have hrecord : recordAt r.pack 0 = r.mapping := recordAt_pack (List.append_nil _).symm
  have hchunk : ChunkItem.readAt r.data 0 = ChunkItem.readAt r.pack 17 := by
    unfold ChunkItem.readAt ChunkRecord.data
    simp only [← leAt_drop, Nat.zero_add, Nat.add_zero, DiskKey.size, Nat.reduceAdd]
  have hstripes : ∀ n, stripesAt r.data 0 n 0 = stripesAt r.pack 17 n 0 := by
    intro n
    unfold stripesAt ChunkRecord.data
    refine List.map_congr_left fun i _ => ?_
    rw [Stripe.readAt_drop, List.drop_drop, Stripe.readAt_drop r.pack]
    have hsize : DiskKey.size + (0 + 48 + 32 * (0 + i)) = 17 + 48 + 32 * (0 + i) := by
      show 17 + (0 + 48 + 32 * (0 + i)) = _
      omega
    rw [hsize]
  rw [hchunk, hstripes, ← hrecord]
  unfold recordAt chunkMapping
  have hlogical : (DiskKey.readAt r.pack 0).offset = key.offset := by
    have hfield := congrArg ChunkMapping.logical hrecord
    unfold recordAt chunkMapping ChunkRecord.mapping at hfield
    exact hfield.trans hkey.symm
  rw [hlogical]
  rfl

include h64

/-- A chunk's item goes into the map, unless the map has a chunk at its start. -/
theorem harvest_eq {leaf : TreeBlock} {item : LeafItem} {r : ChunkRecord}
    (hty : item.key.itemType = chunkItemKey) (hkey : item.key.offset = r.logical.toNat)
    (hdata : leaf.leafItemData env item = .ok r.data) (map : ChunkMap) :
    harvest env leaf item map =
      if map.contains r.logical.toNat then .ok map
      else (map.insert r.mapping).1 >>= fun _ => .ok (map.insert r.mapping).2 := by
  have hpack := r.length_pack
  have hlen : r.data.length = 48 + 32 * r.stripes.length := by
    unfold ChunkRecord.data
    rw [List.length_drop, hpack]
    show 65 + 32 * r.stripes.length - 17 = _
    omega
  have hnum : (ChunkItem.readAt r.data 0).numStripes = r.stripes.length :=
    congrArg ChunkMapping.numStripes (r.mapping_of_data hkey)
  have hmapping := r.mapping_of_data hkey
  have hlt := r.stripes_lt
  rw [hnum] at hmapping
  unfold harvest
  rw [if_pos hty, hdata, Except.ok_bind, ChunkItem.parse_eq (by rw [h64]; omega), Except.ok_bind,
    if_neg (by omega), okOr_some, Except.ok_bind]
  dsimp only
  have htotal : ChunkItem.totalSize r.stripes.length = r.data.length := by
    rw [hlen]
    rfl
  rw [hnum, htotal, if_neg (lt_irrefl _), parseStripes_ok (by rw [h64]; omega) (by omega),
    Except.ok_bind, hmapping, hkey]
  rfl

end Harvest

/-! ### The map during the walk -/

/-- What reads every block of a tree reads the same tree. -/
theorem TreeAt.mono {read read' : ℕ → Outcome TreeBlock}
    (hread : ∀ l b, read l = .ok b → read' l = .ok b) {n : ℕ} {t : Tree DiskKey TreeBlock n}
    {logical : ℕ} (h : TreeAt read n t logical) : TreeAt read' n t logical := by
  induction n generalizing logical with
  | zero =>
    obtain ⟨leaf, rfl, hleaf, hl⟩ := h
    exact ⟨leaf, rfl, hread _ _ hleaf, hl⟩
  | succ n ih =>
    obtain ⟨block, kids, rfl, hblock, hl, hne, hkids, hrest⟩ := h
    exact ⟨block, kids, rfl, hread _ _ hblock, hl, hne,
      hkids.imp fun _ _ hkid => ⟨hkid.1, ih hkid.2⟩, hrest⟩

/-- In a disjoint list, chunks that start alike are one. -/
theorem ChunkMap.Disjoint.eq_of_logical {calls : List ChunkMapping} (h : ChunkMap.Disjoint calls)
    {a b : ChunkMapping} (ha : a ∈ calls) (hb : b ∈ calls) (hab : a.logical = b.logical) :
    a = b := by
  by_contra hne
  have hsymm : Std.Symm fun a b : ChunkMapping => a.stop ≤ b.logical ∨ b.stop ≤ a.logical :=
    ⟨fun _ _ h => h.symm⟩
  have hapart := h.apart.forall ha hb hne
  have h1 := h.nonempty a ha
  have h2 := h.nonempty b hb
  unfold ChunkMapping.stop at hapart
  omega

theorem ChunkMap.contains_iff {map : ChunkMap} {logical : ℕ} :
    map.contains logical = true ↔ ∃ m ∈ map.mappings, m.logical = logical := by
  simp [ChunkMap.contains]

/-- The map holds chunks of the tree only. -/
def Among (records : List ChunkRecord) (map : ChunkMap) : Prop :=
  ∀ m ∈ map.mappings, m ∈ records.map ChunkRecord.mapping

section Walk

variable {env : Env} (h64 : env.usizeBits = 64) {records : List ChunkRecord}
  (hdisjoint : ChunkMap.Disjoint (records.map ChunkRecord.mapping))

include h64 hdisjoint

/-- Taking in the item of a chunk of the tree: the map has it afterwards, and has
lost nothing. -/
theorem harvest_chunk {map : ChunkMap} (hmap : Among records map) {leaf : TreeBlock}
    {item : LeafItem} {r : ChunkRecord} (hr : r ∈ records) (hty : item.key.itemType = chunkItemKey)
    (hkey : item.key.offset = r.logical.toNat)
    (hdata : leaf.leafItemData env item = .ok r.data) :
    ∃ map', harvest env leaf item map = .ok map' ∧ Among records map' ∧
      r.mapping ∈ map'.mappings ∧ (∀ m ∈ map.mappings, m ∈ map'.mappings) ∧
      map'.localDevid = map.localDevid := by
  have hmem : r.mapping ∈ records.map ChunkRecord.mapping := List.mem_map_of_mem hr
  rw [harvest_eq h64 hty hkey hdata]
  by_cases hknown : map.contains r.logical.toNat = true
  · -- the bootstrap's chunk at this start is the chunk itself
    obtain ⟨m, hm, hlogical⟩ := ChunkMap.contains_iff.mp hknown
    obtain rfl : m = r.mapping := hdisjoint.eq_of_logical (hmap m hm) hmem hlogical
    rw [if_pos hknown]
    exact ⟨map, rfl, hmap, hm, fun _ h => h, rfl⟩
  · have hnew : r.mapping ∉ map.mappings := fun hm =>
      hknown (ChunkMap.contains_iff.mpr ⟨_, hm, rfl⟩)
    have hclear : map.Clear r.mapping := by
      intro x hx
      have hne : x ≠ r.mapping := by
        rintro rfl
        exact hnew hx
      have hsymm : Std.Symm fun a b : ChunkMapping => a.stop ≤ b.logical ∨ b.stop ≤ a.logical :=
        ⟨fun _ _ h => h.symm⟩
      exact hdisjoint.apart.forall (hmap x hx) hmem hne
    obtain ⟨hok, hperm⟩ := ChunkMap.insert_of_clear (hdisjoint.stop_lt _ hmem)
      (fun x hx => hdisjoint.nonempty x (hmap x hx)) hclear
    rw [if_neg hknown, hok, Except.ok_bind]
    refine ⟨_, rfl, fun x hx => ?_, ?_, fun x hx => ?_, ChunkMap.insert_localDevid map _⟩
    · rcases List.mem_cons.mp (hperm.mem_iff.mp hx) with rfl | hx
      · exact hmem
      · exact hmap x hx
    · exact hperm.mem_iff.mpr (by simp)
    · exact hperm.mem_iff.mpr (by simp [hx])

/-- The walk's body over a list of chunk items. -/
theorem populate_fold {g : (q : ReadReq) → Ans q} {nodesize chunkRoot : ℕ} {xs : List Located}
    {rs : List ChunkRecord}
    (hxs : List.Forall₂ (fun x r => x.2.key.offset = r.logical.toNat ∧
      x.1.leafItemData env x.2 = .ok r.data) xs rs)
    (hty : ∀ x ∈ xs, x.2.key.itemType = chunkItemKey) (hrs : ∀ r ∈ rs, r ∈ records)
    {map : ChunkMap} (hmap : Among records map) :
    ∃ map', fold ((populateFromChunkTree.walk env nodesize chunkRoot).step g) xs .ok map =
        .ok map' ∧
      Among records map' ∧ (∀ r ∈ rs, r.mapping ∈ map'.mappings) ∧
      (∀ m ∈ map.mappings, m ∈ map'.mappings) ∧ map'.localDevid = map.localDevid := by
  induction hxs generalizing map with
  | nil => exact ⟨map, rfl, hmap, fun _ h => absurd h List.not_mem_nil, fun _ h => h, rfl⟩
  | @cons x r xs rs hx _ ih =>
    obtain ⟨map₁, hrun, hmap₁, hin, hkeep, hdev⟩ := harvest_chunk h64 hdisjoint hmap
      (hrs r (by simp)) (hty x (by simp)) hx.1 hx.2
    obtain ⟨map₂, hfold, hmap₂, hall, hkeep', hdev'⟩ := ih (fun y hy => hty y (by simp [hy]))
      (fun r' hr' => hrs r' (by simp [hr'])) hmap₁
    have hstep : (populateFromChunkTree.walk env nodesize chunkRoot).step g x map =
        .ok (.more map₁ x.2.key.next) := by
      show (liftM (harvest env x.1 x.2 map) >>= fun map =>
        (Pure.pure (.more map x.2.key.next) : ReadM (Pace ChunkMap))).run g = _
      rw [Prog.run_bind, Prog.run_liftM, hrun]
      rfl
    refine ⟨map₂, ?_, hmap₂, fun r' hr' => ?_, fun m hm => hkeep' m (hkeep m hm), hdev'.trans hdev⟩
    · rw [fold, hstep]
      exact hfold
    · rcases List.mem_cons.mp hr' with rfl | hr'
      · exact hkeep' _ hin
      · exact hall r' hr'

end Walk

section Populate

variable {env : Env} (h64 : env.usizeBits = 64) {nodesize : ℕ} (hnode : ValidNodesize nodesize)
  (g : (q : ReadReq) → Ans q) {n : ℕ} (hn : n ≤ maxTreeDepth) {t : Tree DiskKey TreeBlock n}
  {chunkRoot : ℕ} {map : ChunkMap} (htree : TreeAt (blockAt env map nodesize g) n t chunkRoot)

include h64 hnode hn htree

/-- Whatever the walk has added to the map, its searches find what they would have
found at the start. -/
theorem populate_steady : (populateFromChunkTree.walk env nodesize chunkRoot).Steady env map
    (fun _ => true) g (Keeps env map) where
  found map' target hkeep := by
    have htree' : TreeAt (blockAt env map' nodesize g) n t chunkRoot :=
      htree.mono fun l b hb => hkeep.readsBlock h64 hnode g hb
    exact (run_findFirstGe h64 hnode g hn htree' target).trans
      (run_findFirstGe h64 hnode g hn htree target).symm
  proceed _ _ := rfl
  foreign _ _ _ h := by cases h
  more leaf item map₁ map₂ next _ _ _ _ hkeep h := by
    obtain ⟨map', hrun, h⟩ := (Prog.run_bind_eq_ok g).mp h
    cases h
    rw [Prog.run_liftM] at hrun
    exact ⟨hkeep.trans (keeps_harvest hrun), rfl⟩

/-- On a chunk tree the walk takes the chunk items one after the other. -/
theorem populate_run {records : List ChunkRecord} (hchunks : HoldsChunks env n t records) :
    (populateFromChunkTree env map nodesize chunkRoot).run g =
      fold ((populateFromChunkTree.walk env nodesize chunkRoot).step g) (chunkItems n t) .ok
        map := by
  -- the walk starts between the devices and the chunks
  have hfrom : locatedFrom n t chunksFrom = chunkItems n t := by
    refine List.filter_congr fun x hx => ?_
    rw [Bool.eq_iff_iff, decide_eq_true_iff, DiskKey.le_iff]
    rcases hchunks.kinds x hx with h | h
    · obtain ⟨h1, h2⟩ := isOf_iff.mp h
      rw [isOf_iff]
      simp only [chunksFrom, chunkTreeObjectid, devItemsObjectid, firstChunkTreeObjectid] at h1 ⊢
      omega
    · obtain ⟨h1, h2⟩ := isOf_iff.mp h
      simp only [h, chunksFrom, chunkTreeObjectid, firstChunkTreeObjectid, iff_true] at h1 ⊢
      omega
  have hnext : ∀ x ∈ locatedFrom n t chunksFrom, x.2.key.next ≠ none := by
    intro x hx hnone
    rw [hfrom] at hx
    obtain ⟨i, hi⟩ := List.getElem?_of_mem hx
    obtain ⟨r, hri, hkey, -⟩ := forall₂_getElem? hchunks.chunks.flip hi
    have hmem : r.mapping ∈ records.map ChunkRecord.mapping :=
      List.mem_map_of_mem (List.mem_of_getElem? hri)
    have hend := DiskKey.next_eq_none hnone
    have hlen := hchunks.disjoint.nonempty _ hmem
    have hstop : r.logical.toNat + r.mapping.length < 2 ^ 64 := hchunks.disjoint.stop_lt _ hmem
    omega
  have hpasses : passes env map nodesize chunkRoot (fun _ => true) g Walk.fuel chunksFrom =
      (chunkItems n t, none) := by
    rw [passes_tree h64 hnode g hn htree Walk.fuel ⟨by decide, by decide, by decide⟩
      (by unfold Walk.fuel; omega) fun x hx _ hnone => absurd hnone (hnext x hx), hfrom]
    rw [List.takeWhile_eq_self_iff.mpr fun _ _ => rfl]
  have hrun := Walk.run_eq h64 hnode (populate_steady h64 hnode g hn htree) Walk.fuel chunksFrom map
    (Keeps.refl map)
  change _ = fold _ (passes env map nodesize chunkRoot (fun _ => true) g Walk.fuel chunksFrom).1
    (ending (passes env map nodesize chunkRoot (fun _ => true) g Walk.fuel chunksFrom).2) map
      at hrun
  rw [hpasses] at hrun
  exact hrun

/-- The walk over the chunk tree finds every chunk: the map then holds one mapping for
each chunk item of the tree, with that item's fields, and nothing else. -/
theorem populate_complete {records : List ChunkRecord} (hchunks : HoldsChunks env n t records)
    (hboot : Among records map) :
    ∃ map', (populateFromChunkTree env map nodesize chunkRoot).run g = .ok map' ∧
      map'.mappings.Perm (records.map ChunkRecord.mapping) ∧ map'.localDevid = map.localDevid := by
  obtain ⟨map', hfold, hamong, hall, -, hdev⟩ := @populate_fold env h64 records hchunks.disjoint g
    nodesize chunkRoot _ _ hchunks.chunks (fun x hx => (isOf_iff.mp (List.mem_filter.mp hx).2).2)
    (fun _ h => h) map hboot
  refine ⟨map', (populate_run h64 hnode g hn htree hchunks).trans hfold, ?_, hdev⟩
  have hnodup : map'.mappings.Nodup := by
    refine map'.laid.apart.imp_of_mem fun {a b} ha _ hab => ?_
    rintro rfl
    have hlen := hchunks.disjoint.nonempty a (hamong a ha)
    have hstop : a.stop = a.logical + a.length := rfl
    omega
  have hnodup' : (records.map ChunkRecord.mapping).Nodup := by
    refine hchunks.disjoint.apart.imp_of_mem fun {a b} ha _ hab => ?_
    rintro rfl
    have hlen := hchunks.disjoint.nonempty a ha
    have hstop : a.stop = a.logical + a.length := rfl
    omega
  refine (List.perm_ext_iff_of_nodup hnodup hnodup').mpr fun m => ⟨hamong m, fun hm => ?_⟩
  obtain ⟨r, hr, rfl⟩ := List.mem_map.mp hm
  exact hall r hr

end Populate

/-! ### The sample chunk tree -/

def sampleChunk (logical length ty physical : UInt64) : ChunkRecord where
  objectid := 256
  logical := logical
  length := length
  owner := 2
  stripeLen := 65536
  ty := ty
  ioAlign := 65536
  ioWidth := 65536
  sectorSize := 4096
  subStripes := 1
  stripes := [{ devid := 1, offset := physical, devUuid := Vector.replicate 16 0 }]
  stripes_lt := Nat.one_lt_two_pow (by decide)

/-- Where the trees of the volume are kept. -/
def metadataChunk : ChunkRecord := sampleChunk 0x100000 0x3000 4 0x1000

/-- Where its chunk tree is kept. -/
def systemChunk : ChunkRecord := sampleChunk 0x200000 0x1000 2 0x6000

def chunkItem (r : ChunkRecord) : SampleItem :=
  (⟨firstChunkTreeObjectid, chunkItemKey, r.logical.toNat⟩, r.data.length, [(0, leValue r.data)])

/-- One device and the two chunks. -/
def chunkTreeFields : List (ℕ × ℕ) :=
  leafFields 0x6000 4096 3450189756 0x200000
    [(⟨devItemsObjectid, devItemKey, 1⟩, 98, [(0, 1)]), chunkItem metadataChunk,
     chunkItem systemChunk]

/-- The items are those of a chunk tree with these chunks. -/
def ChunkItems (items : List (DiskKey × List UInt8)) (records : List ChunkRecord) : Prop :=
  (∀ y ∈ items, y.1.objectid = devItemsObjectid ∧ y.1.itemType = devItemKey ∨
      y.1.objectid = firstChunkTreeObjectid ∧ y.1.itemType = chunkItemKey) ∧
    items.filter (fun y =>
        y.1.objectid == firstChunkTreeObjectid && y.1.itemType == chunkItemKey) =
      records.map fun r => (⟨firstChunkTreeObjectid, chunkItemKey, r.logical.toNat⟩, r.data)

instance (items : List (DiskKey × List UInt8)) (records : List ChunkRecord) :
    Decidable (ChunkItems items records) :=
  inferInstanceAs (Decidable (_ ∧ _))

theorem TreeHolds.holdsChunks {env : Env} {n : ℕ} {t : Tree DiskKey TreeBlock n}
    {items : List (DiskKey × List UInt8)} (h : TreeHolds env n t items)
    {records : List ChunkRecord} (hitems : ChunkItems items records)
    (hdisjoint : ChunkMap.Disjoint (records.map ChunkRecord.mapping)) :
    HoldsChunks env n t records where
  kinds x hx := by
    obtain ⟨y, hy, hkey, -⟩ := h.item hx
    rw [isOf_iff, isOf_iff, hkey]
    exact hitems.1 y hy
  chunks := by
    have hfiltered := h.filtered fun key =>
      key.objectid == firstChunkTreeObjectid && key.itemType == chunkItemKey
    rw [hitems.2, List.map_map] at hfiltered
    have hall := List.forall₂_map_left_iff.mp (List.forall₂_map_right_iff.mp
      (List.forall₂_eq_eq_eq ▸ hfiltered))
    refine hall.imp fun x r hxr => ?_
    obtain ⟨hkey, hdata⟩ := Prod.mk.inj hxr
    exact ⟨congrArg DiskKey.offset hkey, hdata⟩
  disjoint := hdisjoint

/-- Where a chunk tree of two levels is kept, and two chunks of one leaf each. -/
def wideChunks : List ChunkRecord :=
  [sampleChunk 0x100000 0x3000 4 0x4000, sampleChunk 0x200000 0x3000 2 0x1000,
   sampleChunk 0x300000 0x1000 1 0x7000]

/-- The device and the first chunk. -/
def wideFirst : List SampleItem :=
  (⟨devItemsObjectid, devItemKey, 1⟩, 98, [(0, 1)]) :: (wideChunks.take 1).map chunkItem

def wideSecond : List SampleItem := (wideChunks.drop 1).map chunkItem

def wideFirstPage : ℕ := image (leafFields 0 4096 2648838231 0x201000 wideFirst)

def wideSecondPage : ℕ := image (leafFields 0 4096 1462128687 0x202000 wideSecond)

/-- The leaves; the separator of the second is the key of no item. -/
def wideLeaves : List StoredLeaf :=
  [⟨⟨devItemsObjectid, devItemKey, 1⟩, 0x201000, wideFirstPage, wideFirst⟩,
   ⟨⟨firstChunkTreeObjectid, chunkItemKey, 0x180000⟩, 0x202000, wideSecondPage, wideSecond⟩]

def wideNode : ℕ :=
  image (nodeFields 909903134 0x200000 (wideLeaves.map fun kid => (kid.separator, kid.logical)))

def widePages : List (ℕ × ℕ) :=
  [(1, wideNode), (2, wideFirstPage), (3, wideSecondPage)]

def chunkVolume : SliceDevice := .ofPages widePages 0x8000 sampleSize_lt

/-- The map after the bootstrap, which knows the chunk of the chunk tree only. -/
def bootMap : ChunkMap := (ChunkMap.empty.setLocalDevid 1).insertAll
  [(sampleChunk 0x200000 0x3000 2 0x1000).mapping]

set_option maxRecDepth 100000 in
theorem wide_pages :
    NodePage referenceEnv wideNode 0x200000
      (wideLeaves.map fun kid => (kid.separator, kid.logical)) ∧
    (∀ kid ∈ wideLeaves, LeafPage referenceEnv kid.page kid.logical kid.items) ∧
    ChunkItems (wideLeaves.flatMap fun kid => storedItems kid.items) wideChunks ∧
    ∀ m ∈ bootMap.mappings, m ∈ wideChunks.map ChunkRecord.mapping := by
  decide +kernel

def wideTree : Tree DiskKey TreeBlock 1 :=
  branch (wideLeaves.map fun kid => (kid.separator, pageBlock kid.page))

/-- A page of the sample, read through the chunk. -/
theorem wide_read {k page logical : ℕ} (hpage : widePages.lookup k = some page)
    (hin : 4096 * k + 4096 ≤ 0x8000)
    (hresolve : (fun r => (r.physical, decide (4096 ≤ r.contiguousBytes))) <$>
      bootMap.resolve referenceEnv logical = .ok (4096 * k, true))
    (hchecked : PageChecked referenceEnv page logical) :
    blockAt referenceEnv bootMap 4096 chunkVolume.device.answer logical = .ok (pageBlock page) :=
  blockAt_page referenceEnv_usize64 sampleSize_lt hpage hin hresolve hchecked

theorem wide_reads : ∀ kid ∈ wideLeaves,
    blockAt referenceEnv bootMap 4096 chunkVolume.device.answer kid.logical =
      .ok (pageBlock kid.page) := by
  obtain ⟨-, hleaves, -⟩ := wide_pages
  simp only [wideLeaves, List.forall_mem_cons] at hleaves ⊢
  obtain ⟨h1, h2, -⟩ := hleaves
  exact ⟨@wide_read 2 _ _ rfl (by decide) rfl h1.1, @wide_read 3 _ _ rfl (by decide) rfl h2.1,
    fun _ h => absurd h List.not_mem_nil⟩

theorem wide_at : TreeAt (blockAt referenceEnv bootMap 4096 chunkVolume.device.answer) 1
    wideTree 0x200000 := by
  obtain ⟨hnode, hleaves, -⟩ := wide_pages
  exact treeAt_pages referenceEnv_usize64 hnode hleaves
    (@wide_read 1 _ _ rfl (by decide) rfl hnode.1) wide_reads (List.cons_ne_nil _ _) (by decide)
    (by decide)

theorem wide_holds : HoldsChunks referenceEnv 1 wideTree wideChunks := by
  obtain ⟨-, hleaves, hitems, -⟩ := wide_pages
  exact (branch_holds referenceEnv_usize64 hleaves).holdsChunks hitems
    ⟨by decide, by decide, by decide⟩

/-- The walk adds the chunks of both leaves to a bootstrap of one. -/
theorem populate_sample : ∃ map,
    (populateFromChunkTree referenceEnv bootMap 4096 0x200000).run chunkVolume.device.answer =
      .ok map ∧ map.mappings.Perm (wideChunks.map ChunkRecord.mapping) := by
  obtain ⟨-, -, -, hboot⟩ := wide_pages
  obtain ⟨map, hrun, hperm, -⟩ := populate_complete referenceEnv_usize64 ⟨by decide, by decide⟩
    chunkVolume.device.answer (by decide) wide_at wide_holds hboot
  exact ⟨map, hrun, hperm⟩
