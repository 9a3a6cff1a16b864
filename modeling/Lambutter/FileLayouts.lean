/-
What the file readers owe on a well-formed tree.

`Layout` says what a well-formed extent layout is, `IsContent` what the file then
holds, both in terms of the inode's items in the tree (`inodeItems`).  On such a
file

* `read_file_at` returns the content, wherever it is asked (`readFileAt_content`),
  so that chunks of any sizes put together are the file (`Streams`);
* `read_file` returns it exactly when no item past the end of the file gets in its
  way (`readFile_content_iff`).

A layout can be given as a table of extents (`LaidAs.layout`).
-/
import Lambutter.FileAgreement

open Ranges SearchTree

/-! ### Layouts and contents -/

section Layouts

variable (env : Env) (map : ChunkMap) (sectorsize : ℕ) (dev : Device)

/-- A well-formed extent layout for a file of `size` bytes. -/
structure Layout (size : ℕ) (items : List Located) : Prop where
  /-- The items can be taken apart, and none is encrypted. -/
  parses : ∀ x ∈ items, ∃ e, extentOf env x = .ok e
  nonempty : ∀ x ∈ items, ∀ e, extentOf env x = .ok e → 0 < e.declared
  bounded : ∀ x ∈ items, ∀ e, extentOf env x = .ok e → x.start + e.declared < 2 ^ 64
  /-- Of the part below `size`, all that is declared can be had. -/
  backed : ∀ x ∈ items, ∀ e, extentOf env x = .ok e → x.start < size →
    e.Backed env map sectorsize dev (min e.declared (size - x.start))
  disjoint : items.Pairwise fun x y => ∀ e e', extentOf env x = .ok e → extentOf env y = .ok e' →
    x.start + e.declared ≤ y.start ∨ y.start + e'.declared ≤ x.start

/-- The content of a file: a byte that an item covers is the one stored there, and a
byte that no item covers is zero. -/
structure IsContent (size : ℕ) (items : List Located) (content : List UInt8) : Prop where
  length : content.length = size
  covered : ∀ x ∈ items, ∀ e, extentOf env x = .ok e → ∀ p < size, x.start ≤ p →
    p < x.start + e.declared → content[p]? = e.byte env map sectorsize dev (p - x.start)
  uncovered : ∀ p < size, (∀ x ∈ items, ∀ e, extentOf env x = .ok e →
    ¬ (x.start ≤ p ∧ p < x.start + e.declared)) → content[p]? = some 0

end Layouts

section OfLayout

variable {env : Env} {map : ChunkMap} {sectorsize : ℕ} {dev : Device} {size : ℕ}
  {items : List Located}

theorem Layout.tail {x : Located} {xs : List Located}
    (h : Layout env map sectorsize dev size (x :: xs)) : Layout env map sectorsize dev size xs where
  parses y hy := h.parses y (by simp [hy])
  nonempty y hy := h.nonempty y (by simp [hy])
  bounded y hy := h.bounded y (by simp [hy])
  backed y hy := h.backed y (by simp [hy])
  disjoint := (List.pairwise_cons.mp h.disjoint).2

/-- The item that covers a position is the one that declares it. -/
theorem Layout.declarer_eq (h : Layout env map sectorsize dev size items) {x : Located}
    (hx : x ∈ items) {e : Extent} (he : extentOf env x = .ok e) {p : ℕ} (h1 : x.start ≤ p)
    (h2 : p < x.start + e.declared) : declarer env items p = some (x.start, e) := by
  induction items with
  | nil => cases hx
  | cons y ys ih =>
    rcases List.mem_cons.mp hx with rfl | hmem
    · exact declarer_hit he h1 h2
    · obtain ⟨e', he'⟩ := h.parses y (by simp)
      have := (List.pairwise_cons.mp h.disjoint).1 x hmem e' e he' he
      rw [declarer_miss he' (by omega)]
      exact ih h.tail hmem

theorem declarer_eq_none {p : ℕ} (h : ∀ x ∈ items, ∀ e, extentOf env x = .ok e →
    ¬ (x.start ≤ p ∧ p < x.start + e.declared)) : declarer env items p = none := by
  cases hd : declarer env items p with
  | none => rfl
  | some found =>
    obtain ⟨start, e⟩ := found
    obtain ⟨x, hx, he, rfl, hin⟩ := declarer_mem hd
    exact absurd hin (h x hx e he)

/-- The content is what `fileByte` says. -/
theorem Layout.isContent_iff (h : Layout env map sectorsize dev size items)
    {content : List UInt8} : IsContent env map sectorsize dev size items content ↔
      content.length = size ∧
        ∀ p < size, content[p]? = fileByte env map sectorsize dev items p := by
  constructor
  · intro hc
    refine ⟨hc.length, fun p hp => ?_⟩
    unfold fileByte
    cases hd : declarer env items p with
    | none =>
      refine hc.uncovered p hp fun x hx e he hin => ?_
      rw [h.declarer_eq hx he hin.1 hin.2] at hd
      cases hd
    | some found =>
      obtain ⟨start, e⟩ := found
      obtain ⟨x, hx, he, rfl, h1, h2⟩ := declarer_mem hd
      exact hc.covered x hx e he p hp h1 h2
  · rintro ⟨hlen, hbytes⟩
    refine ⟨hlen, fun x hx e he p hp h1 h2 => ?_, fun p hp hnone => ?_⟩
    · rw [hbytes p hp, fileByte, h.declarer_eq hx he h1 h2]
    · rw [hbytes p hp, fileByte, declarer_eq_none hnone]

/-- What is backed is there. -/
theorem Extent.byte_of_backed {e : Extent} {limit i : ℕ}
    (h : e.Backed env map sectorsize dev limit) (hi : i < limit) :
    ∃ b, e.byte env map sectorsize dev i = some b := by
  unfold Backed at h
  unfold byte
  cases hb : e.backing with
  | zeros => exact ⟨0, rfl⟩
  | inline compression payload =>
    rw [hb] at h
    obtain ⟨plain, hplain, hle⟩ := h
    exact ⟨plain[i], by simp [hplain, Except.toOption, show i < plain.length by omega]⟩
  | plain diskBytenr offset =>
    rw [hb] at h
    obtain ⟨r, hr, -⟩ := h i hi
    exact ⟨_, ChunkMap.byteAt_of_resolve hr⟩
  | packed compression regular =>
    rw [hb] at h
    obtain ⟨-, -, -, decoded, hplain, hle⟩ := h
    refine ⟨decoded[regular.offset + i], ?_⟩
    dsimp only
    rw [hplain, Option.bind_some]
    exact List.getElem?_eq_getElem (by omega)

/-- A well-formed file holds a byte at each position below its size. -/
theorem Layout.fileByte_ne_none (h : Layout env map sectorsize dev size items) {p : ℕ}
    (hp : p < size) : ∃ b, fileByte env map sectorsize dev items p = some b := by
  unfold fileByte
  cases hd : declarer env items p with
  | none => exact ⟨0, rfl⟩
  | some found =>
    obtain ⟨start, e⟩ := found
    obtain ⟨x, hx, he, rfl, h1, h2⟩ := declarer_mem hd
    exact Extent.byte_of_backed (h.backed x hx e he (by omega)) (by omega)

/-- A well-formed file has a content. -/
theorem Layout.exists_content (h : Layout env map sectorsize dev size items) :
    ∃ content, IsContent env map sectorsize dev size items content := by
  refine ⟨(List.range size).map fun p => (fileByte env map sectorsize dev items p).getD 0,
    h.isContent_iff.mpr ⟨by simp, fun p hp => ?_⟩⟩
  obtain ⟨b, hb⟩ := h.fileByte_ne_none hp
  simp [hp, hb]

/-- A file has one content. -/
theorem Layout.content_unique (h : Layout env map sectorsize dev size items)
    {content content' : List UInt8} (hc : IsContent env map sectorsize dev size items content)
    (hc' : IsContent env map sectorsize dev size items content') : content = content' := by
  obtain ⟨hlen, hbytes⟩ := h.isContent_iff.mp hc
  obtain ⟨hlen', hbytes'⟩ := h.isContent_iff.mp hc'
  refine List.ext_getElem? fun p => ?_
  by_cases hp : p < size
  · rw [hbytes p hp, hbytes' p hp]
  · rw [List.getElem?_eq_none (by omega), List.getElem?_eq_none (by omega)]

end OfLayout

/-! ### Layouts from a table -/

section Table

variable {env : Env} {map : ChunkMap} {sectorsize : ℕ} {dev : Device} {size : ℕ}
  {items : List Located} {table : List (ℕ × Extent)}

/-- The items are the extents of a table, each at its position. -/
def LaidAs (env : Env) (items : List Located) (table : List (ℕ × Extent)) : Prop :=
  items.map (fun x => (x.start, extentOf env x)) = table.map fun y => (y.1, .ok y.2)

theorem LaidAs.row (h : LaidAs env items table) {x : Located} (hx : x ∈ items) :
    ∃ y ∈ table, x.start = y.1 ∧ extentOf env x = .ok y.2 := by
  have hmem : (x.start, extentOf env x) ∈ table.map fun y => (y.1, (.ok y.2 : Outcome Extent)) :=
    h ▸ List.mem_map_of_mem hx
  obtain ⟨y, hy, hxy⟩ := List.mem_map.mp hmem
  obtain ⟨hstart, hextent⟩ := Prod.mk.inj hxy
  exact ⟨y, hy, hstart.symm, hextent.symm⟩

theorem LaidAs.exists_item (h : LaidAs env items table) {y : ℕ × Extent} (hy : y ∈ table) :
    ∃ x ∈ items, x.start = y.1 ∧ extentOf env x = .ok y.2 := by
  have hmem : (y.1, (.ok y.2 : Outcome Extent)) ∈
      items.map fun x => (x.start, extentOf env x) :=
    h.symm ▸ List.mem_map_of_mem hy
  obtain ⟨x, hx, hxy⟩ := List.mem_map.mp hmem
  obtain ⟨hstart, hextent⟩ := Prod.mk.inj hxy
  exact ⟨x, hx, hstart, hextent⟩

/-- A table of extents that do not overlap, each backed below the end of the file, is a
well-formed layout. -/
theorem LaidAs.layout (h : LaidAs env items table) (hpos : ∀ y ∈ table, 0 < y.2.declared)
    (hbounded : ∀ y ∈ table, y.1 + y.2.declared < 2 ^ 64)
    (hbacked : ∀ y ∈ table, y.1 < size →
      y.2.Backed env map sectorsize dev (min y.2.declared (size - y.1)))
    (hdisjoint : table.Pairwise fun y z =>
      y.1 + y.2.declared ≤ z.1 ∨ z.1 + z.2.declared ≤ y.1) :
    Layout env map sectorsize dev size items := by
  have hrow : ∀ x ∈ items, ∀ e, extentOf env x = .ok e → (x.start, e) ∈ table := by
    intro x hx e he
    obtain ⟨y, hy, hstart, hextent⟩ := h.row hx
    rw [he] at hextent
    cases hextent
    exact hstart ▸ hy
  refine ⟨fun x hx => ?_, fun x hx e he => hpos _ (hrow x hx e he),
    fun x hx e he => hbounded _ (hrow x hx e he),
    fun x hx e he => hbacked _ (hrow x hx e he), ?_⟩
  · obtain ⟨y, -, -, hextent⟩ := h.row hx
    exact ⟨y.2, hextent⟩
  · -- the pairs of the table are those of the items
    have hpairs : (table.map fun y => (y.1, (.ok y.2 : Outcome Extent))).Pairwise fun a b =>
        ∀ e e', a.2 = .ok e → b.2 = .ok e' → a.1 + e.declared ≤ b.1 ∨ b.1 + e'.declared ≤ a.1 := by
      refine List.pairwise_map.mpr (hdisjoint.imp fun {y z} hyz e e' he he' => ?_)
      cases he
      cases he'
      exact hyz
    unfold LaidAs at h
    rw [← h] at hpairs
    exact List.pairwise_map.mp hpairs

/-- The byte that a table of extents has at a position. -/
def tableByte (env : Env) (map : ChunkMap) (sectorsize : ℕ) (dev : Device)
    (table : List (ℕ × Extent)) (p : ℕ) : Option UInt8 :=
  match table.find? fun y => decide (y.1 ≤ p ∧ p < y.1 + y.2.declared) with
  | none => some 0
  | some (start, e) => e.byte env map sectorsize dev (p - start)

theorem LaidAs.declarer_eq (h : LaidAs env items table) (p : ℕ) :
    declarer env items p = table.find? fun y => decide (y.1 ≤ p ∧ p < y.1 + y.2.declared) := by
  unfold LaidAs at h
  induction items generalizing table with
  | nil =>
    rw [List.map_nil] at h
    rw [List.map_eq_nil_iff.mp h.symm]
    rfl
  | cons x xs ih =>
    obtain ⟨⟨start, e⟩, rows, rfl, hx, hxs⟩ := List.map_eq_cons_iff.mp h.symm
    obtain ⟨rfl, he⟩ := Prod.mk.inj hx
    rw [declarer, ← he]
    dsimp only
    by_cases hin : x.start ≤ p ∧ p < x.start + e.declared
    · rw [if_pos hin, List.find?_cons_of_pos (by simpa using hin)]
    · rw [if_neg hin, List.find?_cons_of_neg (by simpa using hin), ih hxs.symm]

/-- The content of a file laid out as a table says. -/
theorem LaidAs.isContent (h : LaidAs env items table)
    (hlay : Layout env map sectorsize dev size items) {content : List UInt8}
    (hlen : content.length = size)
    (hbytes : ∀ p < size, content[p]? = tableByte env map sectorsize dev table p) :
    IsContent env map sectorsize dev size items content := by
  refine hlay.isContent_iff.mpr ⟨hlen, fun p hp => ?_⟩
  rw [hbytes p hp, tableByte, fileByte]
  generalize hd : declarer env items p = found
  rw [h.declarer_eq] at hd
  subst hd
  cases table.find? fun y => decide (y.1 ≤ p ∧ p < y.1 + y.2.declared) <;> rfl

end Table

/-! ### `read_file_at` -/

section ReadFileAt

variable {env : Env} (h64 : env.usizeBits = 64) {map : ChunkMap} {geometry : Geometry}
  {fsTreeRoot objectid : ℕ} {dev : Device}

include h64

/-- On a well-formed layout `read_file_at` gets through. -/
theorem readFileAt_fold_complete (hdev : dev.Bytewise) {offset want size : ℕ}
    (hrange : offset + want < 2 ^ 64) (hsize : offset + want ≤ size) {xs : List Located}
    (hxs : InOrder objectid xs) (hlay : Layout env map geometry.sectorsize dev size xs)
    {written : List UInt8} (hwritten : written.length < want) :
    ∃ written', fold
      ((readFileAt.walk env map geometry fsTreeRoot objectid offset want).step dev.answer) xs
      (ending none) written = .ok written' := by
  induction xs generalizing written with
  | nil => exact ⟨written, rfl⟩
  | cons x xs ih =>
    obtain ⟨hmine, hitem⟩ := hxs.1 x (by simp)
    obtain ⟨e, he⟩ := hlay.parses x (by simp)
    have hpos := hlay.nonempty x (by simp) e he
    have hend := hlay.bounded x (by simp) e he
    have hbacked := hlay.backed x (by simp) e he
    obtain ⟨data, -, hparse⟩ := Except.bind_eq_ok.mp he
    rw [fold, readFileAt_step h64 dev.answer hmine hitem hrange hwritten, he, Except.ok_bind]
    have hlast : min (x.start + e.declared) (2 ^ 64 - 1) = x.start + e.declared := by omega
    dsimp only
    rw [hlast]
    by_cases hskip : x.start + e.declared ≤ offset + written.length
    · rw [if_pos hskip]
      exact ih hxs.tail hlay.tail hwritten
    rw [if_neg hskip]
    have hlen := readFileAt.length_filled offset x.start hwritten.le
    generalize readFileAt.filled offset want x.start written = filled at hlen
    by_cases hfull : filled.length = want
    · rw [if_pos hfull]
      exact ⟨filled, rfl⟩
    rw [if_neg hfull]
    -- what is asked of the extent lies inside it and below the size
    obtain ⟨bytes, hbytes⟩ := @Extent.copy_complete _ h64 map _ _ _ hdev
      geometry.validSectorsize _ hparse (offset + filled.length - x.start)
      (min (x.start + e.declared - (offset + filled.length)) (want - filled.length))
      (min e.declared (size - x.start)) (by omega) (by omega) (by omega) (by omega)
      (hbacked (by omega))
    have hcount := (Extent.copy_sound h64 geometry.validSectorsize hparse (by omega) (by omega)
      hbytes).1
    rw [hbytes, Except.ok_bind]
    unfold readFileAt.pace
    by_cases hdone : (filled ++ bytes).length = want
    · rw [if_pos hdone]
      exact ⟨filled ++ bytes, rfl⟩
    · rw [if_neg hdone]
      refine ih hxs.tail hlay.tail ?_
      rw [List.length_append] at hdone ⊢
      omega

/-- `read_file_at` on a well-formed file: the bytes asked for, and no other change to
the buffer. -/
theorem readFileAt_layout (hdev : dev.Bytewise) {m : Metadata}
    (hmeta : (readMetadata env map geometry.nodesize fsTreeRoot objectid).run dev.answer = .ok m)
    (hfile : m.isFile = true) {items : List Located}
    (hitems : fileItems env map geometry fsTreeRoot objectid dev.answer = (items, none))
    (hlay : Layout env map geometry.sectorsize dev m.size items) {content : List UInt8}
    (hcontent : IsContent env map geometry.sectorsize dev m.size items content)
    (offset : ℕ) (buf : List UInt8) :
    (readFileAt env map geometry fsTreeRoot objectid offset buf).run dev.answer =
      .ok (min buf.length (m.size - offset), (content.drop offset).take buf.length ++
        buf.drop (min buf.length (m.size - offset))) := by
  have hsize := (readMetadata_ensures h64 geometry.validNodesize).returns _ () hmeta
  obtain ⟨hlength, hbytes⟩ := hlay.isContent_iff.mp hcontent
  have hinOrder := fileItems_inOrder h64 map geometry fsTreeRoot objectid dev.answer
  rw [hitems] at hinOrder
  -- it returns
  have hreturns : ∃ r, (readFileAt env map geometry fsTreeRoot objectid offset buf).run dev.answer =
      .ok r := by
    by_cases hbuf : buf = []
    · subst hbuf
      exact ⟨_, rfl⟩
    have hlen : 0 < buf.length := List.length_pos_iff.mpr hbuf
    by_cases hoffset : offset < m.size
    · rw [run_readFileAt h64 dev.answer hmeta hfile hbuf hoffset, hitems]
      obtain ⟨written, hfold⟩ := @readFileAt_fold_complete _ h64 map geometry fsTreeRoot
        _ _ hdev offset (min buf.length (m.size - offset)) _ (by omega) (by omega) _ hinOrder hlay
        [] (by simp only [List.length_nil]; omega)
      dsimp only
      rw [hfold]
      exact ⟨_, rfl⟩
    · unfold readFileAt
      rw [if_neg (by omega), Prog.run_bind, hmeta, Except.ok_bind, if_neg (by simpa using hfile),
        if_pos (by omega)]
      exact ⟨_, rfl⟩
  obtain ⟨⟨k, buf'⟩, hrun⟩ := hreturns
  obtain ⟨hk, hle, hrest, hstored⟩ := readFileAt_sound h64 hmeta hrun
  rw [hitems] at hstored
  have hfront : buf'.take k = (content.drop offset).take buf.length := by
    refine List.ext_getElem? fun i => ?_
    by_cases hi : i < k
    · rw [List.getElem?_take_of_lt hi, List.getElem?_take_of_lt (by omega), List.getElem?_drop,
        hbytes _ (by omega)]
      have hget : buf'[i]? = some buf'[i] := List.getElem?_eq_getElem (by omega)
      rw [hget]
      rcases hstored i _ hi hget with h | ⟨-, h⟩
      · exact h.symm
      · obtain ⟨b, hb⟩ := hlay.fileByte_ne_none (by omega : offset + i < m.size)
        rw [fileByte_of_overflowsAt h64 geometry.validSectorsize h] at hb
        cases hb
    · rw [List.getElem?_take_eq_none (by omega), List.getElem?_eq_none]
      rw [List.length_take, List.length_drop]
      omega
  rw [hrun, ← hk, ← hfront, ← hrest, List.take_append_drop]

end ReadFileAt

/-! ### Streaming -/

/-- Read in chunks of the given sizes, each from where the last one ended. -/
def stream (read : ℕ → List UInt8 → Outcome (ℕ × List UInt8)) :
    List ℕ → ℕ → Outcome (List UInt8)
  | [], _ => .ok []
  | size :: sizes, offset => do
    let (n, buf) ← read offset (List.replicate size 0)
    let rest ← stream read sizes (offset + n)
    return buf.take n ++ rest

/-- Chunks of any sizes put together are the content. -/
theorem stream_content {read : ℕ → List UInt8 → Outcome (ℕ × List UInt8)} {content : List UInt8}
    (h : ∀ offset buf, read offset buf = .ok (min buf.length (content.length - offset),
      (content.drop offset).take buf.length ++ buf.drop (min buf.length (content.length - offset))))
    (sizes : List ℕ) (offset : ℕ) :
    stream read sizes offset = .ok ((content.drop offset).take sizes.sum) := by
  induction sizes generalizing offset with
  | nil => simp [stream]
  | cons size sizes ih =>
    rw [stream, h, Except.ok_bind]
    dsimp only
    have hfront : ((content.drop offset).take size).length =
        min size (content.length - offset) := by
      rw [List.length_take, List.length_drop]
    rw [ih, Except.ok_bind, List.length_replicate, ← hfront, List.take_left, List.sum_cons]
    have hnext : (content.drop (offset + ((content.drop offset).take size).length)) =
        (content.drop offset).drop size := by
      rw [hfront, List.drop_drop]
      rcases Nat.le_total size (content.length - offset) with hle | hle
      · rw [Nat.min_eq_left hle]
      · rw [List.drop_of_length_le (by omega), List.drop_of_length_le (by omega)]
    rw [hnext, List.take_add]
    rfl

/-- `read_file_at` on a well-formed file in a well-formed tree: every request gets the
content's bytes and leaves the rest of the buffer as it was, makes progress before the
end, and chunks of any sizes put together are the file. -/
theorem readFileAt_content {env : Env} (h64 : env.usizeBits = 64) {map : ChunkMap}
    {geometry : Geometry} {dev : Device} (hdev : dev.Bytewise) {n : ℕ} (hn : n ≤ maxTreeDepth)
    {t : Tree DiskKey TreeBlock n} {fsTreeRoot : ℕ}
    (htree : TreeAt (blockAt env map geometry.nodesize dev.answer) n t fsTreeRoot)
    {objectid : ℕ} (hino : objectid < 2 ^ 64) {m : Metadata}
    (hmeta : (readMetadata env map geometry.nodesize fsTreeRoot objectid).run dev.answer = .ok m)
    (hfile : m.isFile = true)
    (hlay : Layout env map geometry.sectorsize dev m.size (inodeItems n t objectid)) :
    ∃ content, IsContent env map geometry.sectorsize dev m.size (inodeItems n t objectid) content ∧
      (∀ offset buf, (readFileAt env map geometry fsTreeRoot objectid offset buf).run dev.answer =
        .ok (min buf.length (m.size - offset), (content.drop offset).take buf.length ++
          buf.drop (min buf.length (m.size - offset)))) ∧
      (∀ offset buf k buf', offset < m.size → buf ≠ [] →
        (readFileAt env map geometry fsTreeRoot objectid offset buf).run dev.answer =
          .ok (k, buf') → 0 < k) ∧
      ∀ sizes offset, stream
        (fun offset buf =>
          (readFileAt env map geometry fsTreeRoot objectid offset buf).run dev.answer)
        sizes offset = .ok ((content.drop offset).take sizes.sum) := by
  obtain ⟨content, hcontent⟩ := hlay.exists_content
  have hread := readFileAt_layout h64 hdev hmeta hfile (fileItems_tree h64 hn htree hino) hlay
    hcontent
  refine ⟨content, hcontent, hread, fun offset buf k buf' hoffset hbuf hrun => ?_,
    fun sizes offset => ?_⟩
  · have hpos := List.length_pos_iff.mpr hbuf
    rw [hread] at hrun
    obtain ⟨rfl, -⟩ := Prod.mk.inj (Except.ok.inj hrun)
    omega
  · refine stream_content (fun offset buf => ?_) sizes offset
    rw [hcontent.length]
    exact hread offset buf

/-! ### A file over two leaves -/

/-- Five bytes, a hole, four bytes inline, a gap, space kept, and eight bytes of which the
last four lie past the end. -/
def spreadTable : List (ℕ × Extent) :=
  [(0, { declared := 5, backing := .plain 0x104000 0 }), (5, { declared := 3, backing := .zeros }),
   (8, { declared := 4, backing := .inline 0 [108, 101, 97, 102] }),
   (14, { declared := 4, backing := .zeros }),
   (18, { declared := 8, backing := .plain 0x104000 8 })]

/-- `first`, three zeros, `leaf`, six zeros and `last`. -/
def spreadContent : List UInt8 :=
  [102, 105, 114, 115, 116, 0, 0, 0, 108, 101, 97, 102, 0, 0, 0, 0, 0, 0, 108, 97, 115, 116]

theorem spread_items :
    (spreadItems.filter fun y => y.1.objectid == 257 && y.1.itemType == extentDataKey).map
      (fun y => (y.1.offset, Extent.parse y.2)) = spreadTable.map (fun y => (y.1, .ok y.2)) ∧
    (spreadItems.filter fun y => y.1.objectid == 257 && y.1.itemType == inodeItemKey).map
      (fun y => (decide (InodeItem.sizeOf ≤ y.2.length), (InodeItem.readAt y.2 0).metadata)) =
        [(true, { size := 22, nbytes := 0, nlink := 0, mode := 0o100644, uid := 0, gid := 0,
                  generation := 0 })] ∧
    ∀ p < 22, spreadContent[p]? =
      tableByte referenceEnv spreadMap 4096 spreadVolume.device spreadTable p := by
  decide +kernel

theorem spread_laid : LaidAs referenceEnv (inodeItems 1 spreadTree 257) spreadTable :=
  (TreeHolds.extents spread_holds 257).trans (And.left spread_items)

theorem spread_layout : Layout referenceEnv spreadMap 4096 spreadVolume.device 22
    (inodeItems 1 spreadTree 257) := by
  have hreadable : ∀ i < 16,
      spreadMap.Readable referenceEnv spreadVolume.device (0x104000 + i) := by
    have hall : ∀ i < 16, (fun r => spreadVolume.device.serves r.physical 1) <$>
        spreadMap.resolve referenceEnv (0x104000 + i) = .ok true := by
      decide
    exact fun i hi => Except.map_eq_ok.mp (hall i hi)
  refine LaidAs.layout spread_laid (by decide) (by decide) ?_ (by decide)
  simp only [spreadTable, List.forall_mem_cons]
  exact ⟨fun _ i hi => hreadable i (Nat.lt_of_lt_of_le hi (by decide)), fun _ => trivial,
    fun _ => ⟨_, rfl, by decide⟩, fun _ => trivial,
    fun _ i hi => (Nat.add_assoc 0x104000 8 i) ▸ hreadable (8 + i) (by simp at hi; omega),
    fun _ h => absurd h List.not_mem_nil⟩

theorem spread_content : IsContent referenceEnv spreadMap 4096 spreadVolume.device 22
    (inodeItems 1 spreadTree 257) spreadContent := by
  obtain ⟨-, -, hbytes⟩ := spread_items
  exact LaidAs.isContent spread_laid spread_layout rfl hbytes

theorem spread_metadata : (readMetadata referenceEnv spreadMap 4096 0x100000 257).run
    spreadVolume.device.answer =
      .ok { size := 22, nbytes := 0, nlink := 0, mode := 0o100644, uid := 0, gid := 0,
            generation := 0 } := by
  obtain ⟨-, hinode, -⟩ := spread_items
  exact TreeHolds.readMetadata referenceEnv_usize64 sampleNodesize (by decide) spread_at
    spread_holds (by decide) hinode

/-- Ten bytes from the fourth on, out of three extents and the hole between them. -/
theorem readFileAt_sample :
    (readFileAt referenceEnv spreadMap spreadGeometry 0x100000 257 3 (List.replicate 10 1)).run
      spreadVolume.device.answer = .ok (10, [115, 116, 0, 0, 0, 108, 101, 97, 102, 0]) ∧
    stream (fun offset buf => (readFileAt referenceEnv spreadMap spreadGeometry 0x100000 257 offset
      buf).run spreadVolume.device.answer) [7, 0, 12, 9] 0 = .ok spreadContent := by
  obtain ⟨content, hcontent, hread, -, hstream⟩ := @readFileAt_content referenceEnv
    referenceEnv_usize64 spreadMap spreadGeometry spreadVolume.device spreadVolume.bytewise 1
    (by decide) spreadTree 0x100000 spread_at 257 (by decide) _ spread_metadata (by decide)
    spread_layout
  rw [Layout.content_unique spread_layout hcontent spread_content] at hread hstream
  exact ⟨(hread 3 _).trans rfl, (hstream _ 0).trans rfl⟩

/-! ### `read_file` -/

/-- Nothing past the end of the file gets in the way of `read_file`: an item that
starts before the end reaches it, or the first item that does not starts exactly
there, with a payload, if it has one, that decodes. -/
def EndsInside (env : Env) (sectorsize size : ℕ) (items : List Located) : Prop :=
  (∃ x ∈ items, ∃ e, extentOf env x = .ok e ∧ x.start < size ∧ size ≤ x.start + e.declared) ∨
  ∀ x, items.find? (fun x => decide (size ≤ x.start)) = some x → x.start = size ∧
    ∀ e compression payload, extentOf env x = .ok e → e.backing = .inline compression payload →
      ∃ plain, inlinePlain env sectorsize compression payload = .ok plain

section ReadFile

variable {env : Env} (h64 : env.usizeBits = 64) {map : ChunkMap} {geometry : Geometry}
  {fsTreeRoot objectid size : ℕ} {dev : Device}

/-- An item before the end of the file that does not reach it settles nothing. -/
theorem endsInside_cons {sectorsize : ℕ} {x : Located} {xs : List Located} {e : Extent}
    (he : extentOf env x = .ok e) (hstart : x.start < size) (hend : x.start + e.declared < size) :
    EndsInside env sectorsize size (x :: xs) ↔ EndsInside env sectorsize size xs := by
  unfold EndsInside
  rw [List.find?_cons_of_neg (by simpa using hstart)]
  refine or_congr ⟨?_, fun ⟨y, hy, hrest⟩ => ⟨y, by simp [hy], hrest⟩⟩ Iff.rfl
  rintro ⟨y, hy, e', he', hlt, hle⟩
  rcases List.mem_cons.mp hy with rfl | hy
  · rw [he] at he'
    cases he'
    omega
  · exact ⟨y, hy, e', he', hlt, hle⟩

/-- From the first item at or past the end of the file on, that item decides. -/
theorem endsInside_past {sectorsize : ℕ} {x : Located} {xs : List Located}
    (hxs : InOrder objectid (x :: xs)) (hstart : size ≤ x.start) :
    EndsInside env sectorsize size (x :: xs) ↔ x.start = size ∧
      ∀ e compression payload, extentOf env x = .ok e → e.backing = .inline compression payload →
        ∃ plain, inlinePlain env sectorsize compression payload = .ok plain := by
  unfold EndsInside
  rw [List.find?_cons_of_pos (by simpa using hstart)]
  constructor
  · rintro (⟨y, hy, e, -, hlt, -⟩ | h)
    · rcases List.mem_cons.mp hy with rfl | hy
      · omega
      · have := (List.pairwise_cons.mp hxs.2).1 y hy
        omega
    · exact h x rfl
  · intro h
    refine .inr fun y hy => ?_
    cases hy
    exact h

theorem Extent.isInline_iff {e : Extent} : e.isInline = true ↔
    ∃ compression payload, e.backing = .inline compression payload := by
  unfold Extent.isInline
  cases e.backing <;> simp

include h64

/-- At the end of the file `apply_extent` succeeds unless a payload does not decode. -/
theorem Extent.apply_end_iff (hdev : dev.Bytewise) {data : List UInt8} {e : Extent}
    (hparse : Extent.parse data = .ok e) {out : List UInt8} (hout : size ≤ out.length) :
    (∃ out', (e.apply env map geometry.sectorsize out size).run dev.answer = .ok out') ↔
      ∀ compression payload, e.backing = .inline compression payload →
        ∃ plain, inlinePlain env geometry.sectorsize compression payload = .ok plain := by
  constructor
  · rintro ⟨out', h⟩ compression payload hb
    unfold Extent.apply Extent.emitted at h
    dsimp only at h
    rw [if_neg (by simp [Extent.isInline, hb]), hb] at h
    simp only [Prog.run_bind, Prog.run_liftM, Except.bind_eq_ok] at h
    obtain ⟨-, ⟨plain, hplain, -⟩, -⟩ := h
    exact ⟨plain, hplain⟩
  · intro h
    refine Extent.apply_complete h64 hdev geometry.validSectorsize hparse ?_
    cases hkind : e.isInline with
    | false => exact .inl ⟨rfl, hout⟩
    | true =>
      refine .inr ?_
      obtain ⟨compression, payload, hb⟩ := Extent.isInline_iff.mp hkind
      obtain ⟨plain, hplain⟩ := h compression payload hb
      unfold Extent.Backed
      rw [hb]
      exact ⟨plain, hplain, by omega⟩

/-- On a well-formed layout `read_file` gets through exactly when nothing past the end
of the file is in its way. -/
theorem readFile_fold_iff (hdev : dev.Bytewise) (hsize : size + 1 < 2 ^ 64) {xs : List Located}
    (hxs : InOrder objectid xs) (hlay : Layout env map geometry.sectorsize dev size xs)
    {out : List UInt8} (hout : out.length < size) (hbefore : ∀ x ∈ xs, out.length ≤ x.start) :
    (∃ out', fold ((readFile.walk env map geometry fsTreeRoot objectid size).step dev.answer) xs
      (ending none) out = .ok out') ↔ EndsInside env geometry.sectorsize size xs := by
  induction xs generalizing out with
  | nil => exact ⟨fun _ => .inr fun x hx => absurd hx (by simp), fun _ => ⟨out, rfl⟩⟩
  | cons x xs ih =>
    obtain ⟨e, he⟩ := hlay.parses x (by simp)
    have hpos := hlay.nonempty x (by simp) e he
    have hbacked := hlay.backed x (by simp) e he
    have hgap := hbefore x (by simp)
    obtain ⟨data, -, hparse⟩ := Except.bind_eq_ok.mp he
    have hpad : (padded out x.start).length = x.start := length_padded hgap
    rw [fold, readFile_step h64 dev.answer (hxs.1 x (by simp)).1 hsize, if_neg (by omega)]
    rcases Nat.lt_trichotomy x.start size with hlt | heq | hgt
    · -- an extent of the file: all of it below the end is delivered
      obtain ⟨mid, hmid⟩ := @Extent.apply_complete _ h64 map _ _ _ hdev geometry.validSectorsize _
        hparse (padded out x.start) size (.inr (by rw [hpad]; exact hbacked hlt))
      obtain ⟨bytes, rfl, hle, -, hshort⟩ :=
        Extent.apply_sound h64 geometry.validSectorsize hparse hmid
      have hall : min e.declared (size - x.start) ≤ bytes.length := by
        by_contra hfew
        obtain ⟨compression, payload, plain, hb, hplain, hend⟩ :=
          hshort bytes.length le_rfl (by omega) (by omega)
        have hb' := hbacked hlt
        unfold Extent.Backed at hb'
        rw [hb] at hb'
        obtain ⟨plain', hplain', hlong⟩ := hb'
        rw [hplain] at hplain'
        cases hplain'
        omega
      have hlen : (padded out x.start ++ bytes).length = x.start + bytes.length := by
        rw [List.length_append, hpad]
      rw [if_neg (by omega), he, Except.ok_bind, hmid, Except.ok_bind]
      unfold readFile.pace
      by_cases hfull : size ≤ (padded out x.start ++ bytes).length
      · rw [if_pos hfull]
        exact ⟨fun _ => .inl ⟨x, by simp, e, he, hlt, by omega⟩, fun _ => ⟨_, rfl⟩⟩
      · rw [if_neg hfull, endsInside_cons he hlt (by omega)]
        refine ih hxs.tail hlay.tail (by omega) fun y hy => ?_
        obtain ⟨e', he'⟩ := hlay.parses y (by simp [hy])
        have hdisjoint := (List.pairwise_cons.mp hlay.disjoint).1 y hy e e' he he'
        have hascending := (List.pairwise_cons.mp hxs.2).1 y hy
        omega
    · -- an extent that starts at the end
      rw [if_neg (by omega), he, Except.ok_bind, endsInside_past hxs (by omega)]
      have hiff := @Extent.apply_end_iff _ h64 map geometry size _ hdev _ _ hparse
        (padded out x.start) (by omega)
      constructor
      · rintro ⟨out', h⟩
        refine ⟨heq, fun e' compression payload he' => ?_⟩
        rw [he] at he'
        cases he'
        refine hiff.mp ?_ compression payload
        cases happly : (e.apply env map geometry.sectorsize (padded out x.start) size).run
            dev.answer with
        | ok mid => exact ⟨mid, rfl⟩
        | error _ =>
          rw [happly] at h
          cases h
      · rintro ⟨-, h⟩
        obtain ⟨mid, hmid⟩ := hiff.mpr fun compression payload => h e compression payload he
        obtain ⟨bytes, rfl, -⟩ := Extent.apply_sound h64 geometry.validSectorsize hparse hmid
        rw [hmid, Except.ok_bind]
        unfold readFile.pace
        rw [if_pos (by rw [List.length_append]; omega)]
        exact ⟨_, rfl⟩
    · -- an extent past the end
      rw [if_pos hgt, endsInside_past hxs (by omega)]
      refine ⟨?_, fun h => by omega⟩
      rintro ⟨_, h⟩
      cases h

end ReadFile

/-- `read_file` on a well-formed file in a well-formed tree returns the content exactly
when nothing past the end of the file is in its way. -/
theorem readFile_content_iff {env : Env} (h64 : env.usizeBits = 64) {map : ChunkMap}
    {geometry : Geometry} {dev : Device} (hdev : dev.Bytewise) {n : ℕ} (hn : n ≤ maxTreeDepth)
    {t : Tree DiskKey TreeBlock n} {fsTreeRoot : ℕ}
    (htree : TreeAt (blockAt env map geometry.nodesize dev.answer) n t fsTreeRoot)
    {objectid : ℕ} (hino : objectid < 2 ^ 64) {m : Metadata}
    (hmeta : (readMetadata env map geometry.nodesize fsTreeRoot objectid).run dev.answer = .ok m)
    (hfile : m.isFile = true) (hgrant : env.Grants m.size)
    (hlay : Layout env map geometry.sectorsize dev m.size (inodeItems n t objectid)) :
    (∃ content, (readFile env map geometry fsTreeRoot objectid).run dev.answer = .ok content ∧
      IsContent env map geometry.sectorsize dev m.size (inodeItems n t objectid) content) ↔
    m.size = 0 ∨ EndsInside env geometry.sectorsize m.size (inodeItems n t objectid) := by
  have hitems := fileItems_tree h64 hn htree hino
  have hinOrder := fileItems_inOrder h64 map geometry fsTreeRoot objectid dev.answer
  rw [hitems] at hinOrder
  -- what it returns is the content
  have hcontent : ∀ content,
      (readFile env map geometry fsTreeRoot objectid).run dev.answer = .ok content →
      IsContent env map geometry.sectorsize dev m.size (inodeItems n t objectid) content := by
    intro content h
    obtain ⟨hlen, hbytes⟩ := readFile_sound h64 hmeta h
    rw [hitems] at hbytes
    refine hlay.isContent_iff.mpr ⟨hlen, fun p hp => ?_⟩
    have hget : content[p]? = some content[p] := List.getElem?_eq_getElem (by omega)
    rw [hget]
    rcases hbytes p _ hget with h | h
    · exact h.symm
    · obtain ⟨b, hb⟩ := hlay.fileByte_ne_none hp
      rw [fileByte_of_shortAt h] at hb
      cases hb
  -- and it returns when the loop gets through
  have hreturns : (∃ content,
      (readFile env map geometry fsTreeRoot objectid).run dev.answer = .ok content) ↔
      m.size = 0 ∨ EndsInside env geometry.sectorsize m.size (inodeItems n t objectid) := by
    rw [run_readFile h64 dev.answer hmeta hfile hgrant, hitems]
    by_cases hzero : m.size = 0
    · rw [if_pos hzero]
      exact ⟨fun _ => .inl hzero, fun _ => ⟨_, rfl⟩⟩
    have hiff := @readFile_fold_iff _ h64 map geometry fsTreeRoot _ _ _ hdev (hgrant.lt h64) _
      hinOrder hlay [] (Nat.pos_of_ne_zero hzero) fun x _ => Nat.zero_le _
    rw [if_neg hzero, or_iff_right hzero, ← hiff]
    constructor
    · rintro ⟨content, h⟩
      obtain ⟨raw, hraw, -⟩ := Except.bind_eq_ok.mp h
      exact ⟨raw, hraw⟩
    · rintro ⟨raw, hraw⟩
      exact ⟨fitted raw m.size, Except.bind_eq_ok.mpr ⟨raw, hraw, rfl⟩⟩
  rw [← hreturns]
  exact ⟨fun ⟨content, h, _⟩ => ⟨content, h⟩, fun ⟨content, h⟩ => ⟨content, h, hcontent content h⟩⟩

/-- The file over two leaves is read whole: its last extent goes on past the end. -/
theorem readFile_sample :
    (readFile referenceEnv spreadMap spreadGeometry 0x100000 257).run spreadVolume.device.answer =
      .ok spreadContent := by
  have hends : EndsInside referenceEnv 4096 22 (inodeItems 1 spreadTree 257) := by
    obtain ⟨x, hx, hstart, he⟩ := LaidAs.exists_item spread_laid
      (y := (18, { declared := 8, backing := .plain 0x104000 8 })) (by decide)
    exact .inl ⟨x, hx, _, he, by omega, by rw [hstart]; decide⟩
  obtain ⟨content, hread, hcontent⟩ := (@readFile_content_iff referenceEnv referenceEnv_usize64
    spreadMap spreadGeometry spreadVolume.device spreadVolume.bytewise 1 (by decide) spreadTree
    0x100000 spread_at 257 (by decide) _ spread_metadata (by decide) (.inr ⟨by decide, rfl⟩)
    spread_layout).mpr (.inr hends)
  rw [hread, Layout.content_unique spread_layout hcontent spread_content]

set_option maxRecDepth 100000 in
/-- Ten bytes without an extent, before space kept from 4096 on. -/
theorem kept_extents : (inodeItems 0 (.leaf sampleLeaf) 260).map
    (fun x => (x.start, extentOf referenceEnv x)) =
      [(4096, .ok { declared := 4096, backing := .zeros })] := by
  decide +kernel

theorem kept_layout : Layout referenceEnv sampleMap 4096 sampleVolume.device 10
    (inodeItems 0 (.leaf sampleLeaf) 260) := by
  have hlaid : LaidAs referenceEnv (inodeItems 0 (.leaf sampleLeaf) 260)
      [(4096, { declared := 4096, backing := .zeros })] := kept_extents
  exact hlaid.layout (by decide) (by decide) (by simp) (List.pairwise_singleton _ _)

set_option maxRecDepth 100000 in
/-- A file laid out well, in a well-formed tree, that `read_file` refuses. -/
theorem readFile_refuses_kept :
    TreeAt (blockAt referenceEnv sampleMap 4096 sampleVolume.device.answer) 0 (.leaf sampleLeaf)
      0x100000 ∧
    (readMetadata referenceEnv sampleMap 4096 0x100000 260).run sampleVolume.device.answer =
      .ok { size := 10, nbytes := 0, nlink := 0, mode := 0o100644, uid := 0, gid := 0,
            generation := 0 } ∧
    Layout referenceEnv sampleMap 4096 sampleVolume.device 10
      (inodeItems 0 (.leaf sampleLeaf) 260) ∧
    (readFile referenceEnv sampleMap sampleGeometry 0x100000 260).run sampleVolume.device.answer =
      err (.corruptBtree "extent_past_eof" 0x100000) := by
  refine ⟨sampleTree_at, ?_, kept_layout, ?_⟩
  · decide +kernel
  · decide +kernel
