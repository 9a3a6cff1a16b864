/-
The read paths against each other, and against what the items store.

On every image, well-formed or not: when both file readers succeed they agree
(`reads_agree`), and what a successful read returns is the stored data exactly when
every item holds the bytes it is the first to declare (`no_fabricated_data`).
`read_link` is the third path: it returns a prefix of the first item's payload, which is
the link's target where that item holds it (`HoldsTarget`).
-/
import Lambutter.FileContent

open Ranges SearchTree

section Agreement

variable {env : Env} (h64 : env.usizeBits = 64) {map : ChunkMap} {geometry : Geometry}
  {fsTreeRoot objectid : ℕ} {dev : Device}

/-- A payload that ends before a position stores no byte there. -/
theorem fileByte_of_shortAt {sectorsize : ℕ} {items : List Located} {p : ℕ}
    (h : ShortAt env sectorsize items p) : fileByte env map sectorsize dev items p = none := by
  obtain ⟨start, e, hd, compression, payload, plain, hb, hplain, hle⟩ := h
  unfold fileByte Extent.byte
  rw [hd]
  dsimp only
  rw [hb]
  simp [hplain, Except.toOption, hle]

include h64 in
/-- The plaintext of a compressed extent is within the cap. -/
theorem packedPlain_length {sectorsize : ℕ} (hsector : ValidSectorsize sectorsize)
    {compression : ℕ} (hc : compression ≠ compressNone) {regular : ExtentDataRegular}
    {decoded : List UInt8}
    (h : Extent.packedPlain env map sectorsize dev compression regular = some decoded) :
    decoded.length ≤ maxDecompressedExtentBytes := by
  unfold Extent.packedPlain at h
  obtain ⟨compressed, -, hd⟩ := Option.bind_eq_some_iff.mp h
  have hempty : ([] : List UInt8).length ≤ maxDecompressedExtentBytes := Nat.zero_le _
  have hbounded := decode_bounded h64 hc compressed hempty hsector
  cases hr : decode env compression compressed [] sectorsize with
  | ok d =>
    rw [hr] at hd
    cases hd
    exact hbounded.length_le _ hr
  | error x =>
    rw [hr] at hd
    cases hd

include h64

/-- A position past `u64` stores no byte. -/
theorem fileByte_of_overflowsAt {sectorsize : ℕ} (hsector : ValidSectorsize sectorsize)
    {items : List Located} {p : ℕ} (h : OverflowsAt env items p) :
    fileByte env map sectorsize dev items p = none := by
  have hmax : maxDecompressedExtentBytes = 16777216 := rfl
  obtain ⟨start, e, hd, compression, regular, hb, hle⟩ := h
  obtain ⟨x, -, he, -⟩ := declarer_mem hd
  obtain ⟨data, -, hparse⟩ := Except.bind_eq_ok.mp he
  obtain ⟨hc, -, -⟩ := Extent.packed_fields hparse hb
  unfold fileByte Extent.byte
  rw [hd]
  dsimp only
  rw [hb]
  dsimp only
  cases hplain : Extent.packedPlain env map sectorsize dev compression regular with
  | none => rfl
  | some decoded =>
    have := packedPlain_length h64 hsector hc hplain
    rw [Option.bind_some, List.getElem?_eq_none (by omega)]

/-- The two file-read paths never disagree on data, on any image. -/
theorem reads_agree {v : List UInt8}
    (hv : (readFile env map geometry fsTreeRoot objectid).run dev.answer = .ok v) :
    ∃ m, (readMetadata env map geometry.nodesize fsTreeRoot objectid).run dev.answer = .ok m ∧
      v.length = m.size ∧ ∀ offset buf n buf',
        (readFileAt env map geometry fsTreeRoot objectid offset buf).run dev.answer =
          .ok (n, buf') →
        n = min buf.length (m.size - offset) ∧ buf'.take n = (v.drop offset).take n := by
  obtain ⟨m, hmeta, -, -⟩ := readFile_ok h64 dev.answer hv
  obtain ⟨hlen, hfile⟩ := readFile_sound h64 hmeta hv
  refine ⟨m, hmeta, hlen, fun offset buf n buf' hat => ?_⟩
  obtain ⟨hn, hle, -, hbytes⟩ := readFileAt_sound h64 hmeta hat
  refine ⟨hn, List.ext_getElem? fun i => ?_⟩
  by_cases hi : i < n
  swap
  · rw [List.getElem?_take_eq_none (by omega), List.getElem?_take_eq_none (by omega)]
  rw [List.getElem?_take_of_lt hi, List.getElem?_take_of_lt hi, List.getElem?_drop]
  have hb : buf'[i]? = some buf'[i] := List.getElem?_eq_getElem (by omega)
  have hc : v[offset + i]? = some v[offset + i] := List.getElem?_eq_getElem (by omega)
  rw [hb, hc]
  rcases hfile _ _ hc with h1 | h1
  · rcases hbytes i _ hi hb with h2 | ⟨-, h2⟩
    · rw [← h1, ← h2]
    · rw [fileByte_of_overflowsAt h64 geometry.validSectorsize h2] at h1
      cases h1
  · -- the payload ends before the position, which `read_file_at` refuses
    rcases hbytes i _ hi hb with h2 | ⟨-, h2⟩
    · rw [fileByte_of_shortAt h1] at h2
      cases h2
    · obtain ⟨start, e, hd, compression, payload, plain, hb1, -⟩ := h1
      obtain ⟨start', e', hd', compression', regular, hb2, -⟩ := h2
      rw [hd] at hd'
      cases hd'
      rw [hb1] at hb2
      cases hb2

/-! ### `read_link` -/

/-- What a successful `read_link` went through: it is a prefix of the plaintext of
the first item's payload. -/
theorem readLink_ok (g : (q : ReadReq) → Ans q) {out : List UInt8}
    (h : (readLink env map geometry fsTreeRoot objectid).run g = .ok out) :
    ∃ m, (readMetadata env map geometry.nodesize fsTreeRoot objectid).run g = .ok m ∧
      ∃ x xs, (fileItems env map geometry fsTreeRoot objectid g).1 = x :: xs ∧
        ∃ e compression payload plain, extentOf env x = .ok e ∧
          e.backing = .inline compression payload ∧
          inlinePlain env geometry.sectorsize compression payload = .ok plain ∧
          out = plain.take m.size := by
  unfold readLink at h
  simp only [Prog.run_bind, Except.bind_eq_ok] at h
  obtain ⟨m, hmeta, h⟩ := h
  have hsize := (readMetadata_ensures h64 geometry.validNodesize).returns _ () hmeta
  refine ⟨m, hmeta, ?_⟩
  split_ifs at h with hlink
  swap
  · exact absurd h err_ne_ok
  simp only [Prog.run_bind, Except.bind_eq_ok] at h
  obtain ⟨found, hfind, h⟩ := h
  rcases found with _ | ⟨leaf, idx⟩
  · exact absurd h err_ne_ok
  -- the item read is the one the search returns, an extent of the link itself
  have hfirst := run_findFirstGe_first h64 geometry.validNodesize fsTreeRoot g hfind
  have hlen : idx < leaf.items.length := hfirst.lt.trans_eq leaf.length_items.symm
  dsimp only at h
  rw [hfirst.accepted.leafItem_ok h64 hfirst.level (List.getElem?_eq_getElem hlen),
    liftM_ok_bind] at h
  split_ifs at h with hmine
  swap
  · exact absurd h err_ne_ok
  simp only [Prog.run_bind, Prog.run_liftM, Except.bind_eq_ok,
    extentHeader_eq (Env.usize_ge h64)] at h
  obtain ⟨data, hdata, header, hheader, h⟩ := h
  -- its header is whole and unencrypted, and it is inline
  split_ifs at hheader with hshort henc
  · exact absurd hheader err_ne_ok
  · exact absurd hheader err_ne_ok
  cases hheader
  split_ifs at h with hlong
  · exact absurd h err_ne_ok
  have hinline := not_not.mp hlong
  rw [slice_ok (not_lt.mp hshort) le_rfl, liftM_ok_bind, List.take_of_length_le (by simp)] at h
  simp only [Prog.run_bind, Prog.run_liftM, Except.bind_eq_ok] at h
  obtain ⟨plain, hplain, hout⟩ := h
  -- so it is also the first item that the passes of a read meet
  have hitems : ∃ xs, (fileItems env map geometry fsTreeRoot objectid g).1 =
      (leaf, leaf.items[idx]) :: xs := by
    have hhere : ((leaf.items.drop idx).takeWhile (isExtentOf objectid)).map (leaf, ·) =
        (leaf, leaf.items[idx]) ::
          ((leaf.items.drop (idx + 1)).takeWhile (isExtentOf objectid)).map (leaf, ·) := by
      rw [List.drop_eq_getElem_cons hlen, List.takeWhile_cons, if_pos hmine, List.map_cons]
    unfold fileItems
    rw [Walk.fuel, show 2 ^ 136 = (2 ^ 136 - 1) + 1 from rfl, passes, hfind]
    dsimp only
    rw [hhere]
    split_ifs
    · split
      · exact ⟨_, rfl⟩
      · exact ⟨_, rfl⟩
    · exact ⟨_, rfl⟩
  obtain ⟨xs, hitems⟩ := hitems
  refine ⟨_, xs, hitems, ⟨(ExtentDataHeader.readAt data 0).ramBytes,
    .inline (ExtentDataHeader.readAt data 0).compression (data.drop 21)⟩, _, _, plain, ?_, rfl,
    hplain, ?_⟩
  · rw [extentOf, hdata, Except.ok_bind, Extent.parse, if_neg hshort, if_neg henc, if_pos hinline]
  · rw [Env.asUsize_eq h64 hsize] at hout
    cases hout
    exact List.take_eq_take_min.symm

omit h64 in
/-- An extent with an inline payload is an inline item. -/
theorem Extent.parse_inline {data : List UInt8} {e : Extent} (h : Extent.parse data = .ok e)
    {compression : ℕ} {payload : List UInt8} (hb : e.backing = .inline compression payload) :
    21 ≤ data.length ∧ ¬ (ExtentDataHeader.readAt data 0).encryption ≠ 0 ∧
      (ExtentDataHeader.readAt data 0).ty = fileExtentInline ∧
      (ExtentDataHeader.readAt data 0).compression = compression ∧ data.drop 21 = payload := by
  unfold Extent.parse at h
  dsimp only at h
  split_ifs at h with hshort henc hinline hregular htail
  · cases h
  · cases h
  · cases h
    cases hb
    exact ⟨not_lt.mp hshort, henc, hinline, rfl, rfl⟩
  · cases h
  · cases h
    unfold Extent.ofRegular at hb
    dsimp only at hb
    split_ifs at hb
  · cases h

/-- `read_link` in a well-formed tree returns what the link's first item has of its
target. -/
theorem readLink_run {n : ℕ} (hn : n ≤ maxTreeDepth) {t : Tree DiskKey TreeBlock n}
    (htree : TreeAt (blockAt env map geometry.nodesize dev.answer) n t fsTreeRoot) {m : Metadata}
    (hmeta : (readMetadata env map geometry.nodesize fsTreeRoot objectid).run dev.answer = .ok m)
    (hlink : m.isSymlink = true) {x : Located} (hfirst : (inodeItems n t objectid).head? = some x)
    {e : Extent} (he : extentOf env x = .ok e) {compression : ℕ} {payload plain : List UInt8}
    (hbacking : e.backing = .inline compression payload)
    (hplain : inlinePlain env geometry.sectorsize compression payload = .ok plain) :
    (readLink env map geometry fsTreeRoot objectid).run dev.answer = .ok (plain.take m.size) := by
  obtain ⟨data, hdata, hparse⟩ := Except.bind_eq_ok.mp he
  obtain ⟨hlong, henc, hty, rfl, rfl⟩ := Extent.parse_inline hparse hbacking
  have hsize := (readMetadata_ensures h64 geometry.validNodesize).returns _ () hmeta
  obtain ⟨found, hrun, hfound⟩ := run_findFirstOf h64 geometry.validNodesize dev.answer hn htree
    objectid extentDataKey
  have hhead : ((located n t).filter fun x => isOf objectid extentDataKey x.2).head? =
      some x := hfirst
  rw [hhead] at hfound
  obtain ⟨i, rfl, hget⟩ := hfound
  have hmine : isExtentOf objectid x.2 = true :=
    (List.mem_filter.mp (List.mem_of_head? hhead)).2
  have hslice : slice data ExtentDataHeader.size data.length = .ok (data.drop 21) := by
    rw [slice_ok hlong le_rfl, List.take_of_length_le (by rw [List.length_drop])]
  unfold readLink
  rw [Prog.run_bind, hmeta, Except.ok_bind, if_neg (not_not.mpr hlink), Prog.run_bind]
  change ((findFirstGe env map geometry.nodesize fsTreeRoot
    ⟨objectid, extentDataKey, 0⟩).run dev.answer >>= _) = _
  rw [hrun, Except.ok_bind]
  dsimp only
  simp only [Prog.run_bind, Prog.run_liftM]
  rw [hget, Except.ok_bind, if_neg (not_not.mpr hmine)]
  simp only [Prog.run_bind, Prog.run_liftM]
  rw [hdata, Except.ok_bind, extentHeader_eq (Env.usize_ge h64), if_neg (by omega), if_neg henc,
    Except.ok_bind, if_neg (not_not.mpr hty)]
  simp only [Prog.run_bind, Prog.run_liftM, Prog.run_pure]
  rw [hslice, Except.ok_bind, hplain, Except.ok_bind, Env.asUsize_eq h64 hsize]
  exact congrArg Except.ok List.take_eq_take_min.symm

omit h64 in
theorem sampleNodesize : ValidNodesize 4096 := ⟨by decide, by decide⟩

def sampleGeometry : Geometry where
  nodesize := 4096
  sectorsize := 4096
  validNodesize := sampleNodesize
  validSectorsize := ⟨by decide, by decide⟩

omit h64 in
set_option maxRecDepth 100000 in
/-- The first file of the sample volume, whole and from its second byte on. -/
theorem reads_agree_sample : ∃ buf,
    (readFileAt referenceEnv sampleMap sampleGeometry 0x100000 257 1 (List.replicate 6 0)).run
      sampleVolume.device.answer = .ok (4, buf) ∧ buf.take 4 = [101, 108, 108, 111] := by
  have hreads : (readFile referenceEnv sampleMap sampleGeometry 0x100000 257).run
      sampleVolume.device.answer = .ok [104, 101, 108, 108, 111] ∧
      ((readFileAt referenceEnv sampleMap sampleGeometry 0x100000 257 1 (List.replicate 6 0)).run
        sampleVolume.device.answer).isOk = true := by
    decide +kernel
  obtain ⟨hread, hat⟩ := hreads
  obtain ⟨m, -, hsize, hagree⟩ := reads_agree referenceEnv_usize64 hread
  cases hrun : (readFileAt referenceEnv sampleMap sampleGeometry 0x100000 257 1
      (List.replicate 6 0)).run sampleVolume.device.answer with
  | error x =>
    rw [hrun] at hat
    cases hat
  | ok r =>
    obtain ⟨n, buf⟩ := r
    obtain ⟨hn, hbytes⟩ := hagree 1 _ n buf hrun
    obtain rfl : n = 4 := by rw [hn, ← hsize]; rfl
    exact ⟨buf, rfl, hbytes⟩

/-! ### Stored data only -/

/-- The bytes are what the file holds from `offset` on. -/
def Genuine (file : ℕ → Option UInt8) (offset : ℕ) (bytes : List UInt8) : Prop :=
  ∀ i b, bytes[i]? = some b → file (offset + i) = some b

/-- What is short of the bytes asked for is refused, in three of the four branches. -/
theorem refuses_underdecoded (g : (q : ReadReq) → Ans q) {data : List UInt8} {e : Extent}
    (hparse : Extent.parse data = .ok e) {i len : ℕ} {plain : List UInt8} :
    (∀ compression payload, e.backing = .inline compression payload →
      inlinePlain env geometry.sectorsize compression payload = .ok plain →
      plain.length < i + len → i + len < 2 ^ 64 →
      (copyExtentSlice env map geometry.sectorsize data i len).run g =
        err (.corruptBtree "extent_underdecoded" 0)) ∧
    ∀ compression regular, e.backing = .packed compression regular →
      (readCompressed env map geometry.sectorsize compression regular).run g = .ok plain →
      (plain.length < regular.offset + i + len → regular.offset + i + len < 2 ^ 64 →
        (copyExtentSlice env map geometry.sectorsize data i len).run g =
          err (.corruptBtree "extent_underdecoded" regular.diskBytenr)) ∧
      ∀ out fileSize, fileSize < 2 ^ 64 → 0 < min e.declared (fileSize - out.length) →
        plain.length < regular.offset + min e.declared (fileSize - out.length) →
        regular.offset + min e.declared (fileSize - out.length) < 2 ^ 64 →
        (applyExtent env map geometry.sectorsize out data fileSize).run g =
          err (.corruptBtree "extent_underdecoded" regular.diskBytenr) := by
  refine ⟨fun compression payload hb hplain hshort hlt => ?_, fun compression regular hb hread =>
    ⟨fun hshort hlt => ?_, fun out fileSize hsize hemit hshort hlt => ?_⟩⟩
  -- inline in copy_extent_slice, compressed in copy_extent_slice, compressed in apply_extent;
  -- only the inline branch of apply_extent has no such check
  · rw [copyExtentSlice_eq (Env.usize_ge h64), Prog.run_bind, run_note_event, Except.ok_bind,
      hparse, liftM_ok_bind, Extent.copy, hb]
    dsimp only
    rw [hplain, liftM_ok_bind, Env.asUsize_eq h64 (by omega), h64, checkedAdd, if_pos hlt,
      okOr_some, liftM_ok_bind, if_pos hshort]
    rfl
  · rw [copyExtentSlice_eq (Env.usize_ge h64), Prog.run_bind, run_note_event, Except.ok_bind,
      hparse, liftM_ok_bind, Extent.copy, hb]
    dsimp only
    rw [Prog.run_bind, hread, Except.ok_bind, Env.addU64_ok env (by omega), liftM_ok_bind,
      Env.tryIntoUsize_ok h64 (by omega), liftM_ok_bind, h64, checkedAdd, if_pos hlt,
      okOr_some, liftM_ok_bind, if_pos hshort]
    rfl
  · rw [applyExtent_eq h64 out data hsize, hparse, liftM_ok_bind, Extent.apply]
    rw [if_neg (by omega), Extent.emitted, hb]
    dsimp only
    rw [Prog.run_bind, Prog.run_bind, hread, Except.ok_bind, Env.tryIntoUsize_ok h64 (by omega),
      liftM_ok_bind, h64, checkedAdd, if_pos hlt, okOr_some, liftM_ok_bind, if_pos hshort]
    rfl

/-- `read_file` returns stored data only where no inline payload is shorter than
what its item is the first to declare. -/
theorem readFile_genuine_iff {m : Metadata}
    (hmeta : (readMetadata env map geometry.nodesize fsTreeRoot objectid).run dev.answer = .ok m)
    {v : List UInt8}
    (hv : (readFile env map geometry fsTreeRoot objectid).run dev.answer = .ok v) :
    Genuine (fileByte env map geometry.sectorsize dev
        (fileItems env map geometry fsTreeRoot objectid dev.answer).1) 0 v ↔
      ∀ p < m.size, ¬ ShortAt env geometry.sectorsize
        (fileItems env map geometry fsTreeRoot objectid dev.answer).1 p := by
  obtain ⟨hlen, hbytes⟩ := readFile_sound h64 hmeta hv
  constructor
  · intro h p hp hshort
    have hstored := h p _ (List.getElem?_eq_getElem (by omega))
    rw [Nat.zero_add, fileByte_of_shortAt hshort] at hstored
    cases hstored
  · intro h i b hb
    rw [Nat.zero_add]
    refine (hbytes i b hb).resolve_right (h i ?_)
    have := (List.getElem?_eq_some_iff.mp hb).1
    omega

/-- `read_file_at` returns stored data only where no position wraps. -/
theorem readFileAt_genuine_iff {m : Metadata}
    (hmeta : (readMetadata env map geometry.nodesize fsTreeRoot objectid).run dev.answer = .ok m)
    {offset k : ℕ} {buf buf' : List UInt8}
    (hat : (readFileAt env map geometry fsTreeRoot objectid offset buf).run dev.answer =
      .ok (k, buf')) :
    Genuine (fileByte env map geometry.sectorsize dev
        (fileItems env map geometry fsTreeRoot objectid dev.answer).1) offset (buf'.take k) ↔
      (env.overflowChecks = false → ∀ i < k, ¬ OverflowsAt env
        (fileItems env map geometry fsTreeRoot objectid dev.answer).1 (offset + i)) := by
  obtain ⟨-, hle, -, hbytes⟩ := readFileAt_sound h64 hmeta hat
  constructor
  · intro h _ i hi hover
    have hget : (buf'.take k)[i]? = some buf'[i] := by
      rw [List.getElem?_take_of_lt hi]
      exact List.getElem?_eq_getElem (by omega)
    have hstored := h i _ hget
    rw [fileByte_of_overflowsAt h64 geometry.validSectorsize hover] at hstored
    cases hstored
  · intro h i b hb
    have hi : i < k := by
      have := (List.getElem?_eq_some_iff.mp hb).1
      rw [List.length_take] at this
      omega
    rw [List.getElem?_take_of_lt hi] at hb
    exact (hbytes i b hi hb).resolve_right fun ⟨hchecks, hover⟩ => h hchecks i hi hover

/-- The item holds a link's target: it stores that many bytes and, where there are any,
declares them all from the start of the file on. -/
def HoldsTarget (size : ℕ) (x : Located) (e : Extent) (plain : List UInt8) : Prop :=
  size ≤ plain.length ∧ (0 < size → x.start = 0 ∧ size ≤ e.declared)

omit h64 in
/-- A target that its first item holds is what the file stores. -/
theorem HoldsTarget.genuine {x : Located} {xs : List Located} {e : Extent} {compression size : ℕ}
    {payload plain : List UInt8} (he : extentOf env x = .ok e)
    (hb : e.backing = .inline compression payload)
    (hplain : inlinePlain env geometry.sectorsize compression payload = .ok plain)
    (h : HoldsTarget size x e plain) :
    Genuine (fileByte env map geometry.sectorsize dev (x :: xs)) 0 (plain.take size) := by
  intro p b hp
  have hlt : p < size := by
    have := (List.getElem?_eq_some_iff.mp hp).1
    rw [List.length_take] at this
    omega
  obtain ⟨hstart, hdeclared⟩ := h.2 (by omega)
  rw [List.getElem?_take_of_lt hlt] at hp
  unfold fileByte
  rw [Nat.zero_add, declarer_hit he (by omega) (by omega)]
  dsimp only
  rw [Extent.byte, hb, hstart]
  simpa [hplain, Except.toOption] using hp

/-- No other item has a byte of the target, and the target has no zeros: then it is what
the file stores only where the first item holds it. -/
theorem holdsTarget_of_genuine {x : Located} {xs : List Located} {e : Extent} {size : ℕ}
    {plain : List UInt8} (hitems : (fileItems env map geometry fsTreeRoot objectid dev.answer).1 =
      x :: xs) (he : extentOf env x = .ok e) (hle : size ≤ plain.length)
    (hothers : ∀ p < size, declarer env xs p = none) (hzero : 0 ∉ plain.take size)
    (h : Genuine (fileByte env map geometry.sectorsize dev (x :: xs)) 0 (plain.take size)) :
    HoldsTarget size x e plain := by
  -- a byte that no item declares would be one of the zeros
  have hdeclared : ∀ p < size, declarer env (x :: xs) p ≠ none := by
    intro p hp hnone
    have hget : (plain.take size)[p]? = some plain[p] := by
      rw [List.getElem?_take_of_lt hp]
      exact List.getElem?_eq_getElem (by omega)
    have hbyte := h p _ hget
    unfold fileByte at hbyte
    rw [Nat.zero_add, hnone] at hbyte
    rw [← Option.some.inj hbyte] at hget
    exact hzero (List.mem_of_getElem? hget)
  have hinorder := fileItems_inOrder h64 map geometry fsTreeRoot objectid dev.answer
  rw [hitems] at hinorder
  refine ⟨hle, fun hpos => ⟨?_, ?_⟩⟩
  · by_contra hstart
    exact hdeclared 0 hpos (hinorder.declarer_eq_none (by omega))
  · by_contra hshort
    refine hdeclared e.declared (by omega) ?_
    by_cases hin : x.start = 0
    · rw [declarer_miss he (by omega)]
      exact hothers _ (by omega)
    · exact absurd (hinorder.declarer_eq_none (by omega)) (hdeclared 0 hpos)

/-- `read_link` returns as many bytes as the link has only where the first item's
plaintext has them, and stored bytes where that item holds the target.  Elsewhere it
returns them by coincidence only: never for a target without zeros that no other item
has a part in. -/
theorem readLink_genuine {m : Metadata}
    (hmeta : (readMetadata env map geometry.nodesize fsTreeRoot objectid).run dev.answer = .ok m)
    {out : List UInt8}
    (hout : (readLink env map geometry fsTreeRoot objectid).run dev.answer = .ok out) :
    ∃ x xs e compression payload plain,
      (fileItems env map geometry fsTreeRoot objectid dev.answer).1 = x :: xs ∧
      extentOf env x = .ok e ∧ e.backing = .inline compression payload ∧
      inlinePlain env geometry.sectorsize compression payload = .ok plain ∧
      (out.length = m.size ↔ m.size ≤ plain.length) ∧
      (HoldsTarget m.size x e plain →
        Genuine (fileByte env map geometry.sectorsize dev (x :: xs)) 0 out) ∧
      ((∀ p < m.size, declarer env xs p = none) → 0 ∉ plain.take m.size →
        (out.length = m.size ∧ Genuine (fileByte env map geometry.sectorsize dev (x :: xs)) 0 out ↔
          HoldsTarget m.size x e plain)) := by
  obtain ⟨m', hmeta', x, xs, hitems, e, compression, payload, plain, he, hb, hplain, rfl⟩ :=
    readLink_ok h64 dev.answer hout
  rw [hmeta] at hmeta'
  cases hmeta'
  have hlen : (plain.take m.size).length = m.size ↔ m.size ≤ plain.length := by
    rw [List.length_take, min_eq_left_iff]
  refine ⟨x, xs, e, compression, payload, plain, hitems, he, hb, hplain, hlen,
    fun h => h.genuine he hb hplain, fun hothers hzero => ⟨?_, fun h => ?_⟩⟩
  · rintro ⟨hall, hgenuine⟩
    exact holdsTarget_of_genuine h64 hitems he (hlen.mp hall) hothers hzero hgenuine
  · exact ⟨hlen.mpr h.1, h.genuine he hb hplain⟩

/-- No fabricated data: what `read_file` and `read_file_at` return is the stored data
exactly when nothing they were asked for is short or wraps, and what `read_link` returns
is the link's data where the first item holds it all. -/
theorem no_fabricated_data {m : Metadata}
    (hmeta : (readMetadata env map geometry.nodesize fsTreeRoot objectid).run dev.answer = .ok m) :
    (∀ v, (readFile env map geometry fsTreeRoot objectid).run dev.answer = .ok v →
      (Genuine (fileByte env map geometry.sectorsize dev
          (fileItems env map geometry fsTreeRoot objectid dev.answer).1) 0 v ↔
        ∀ p < m.size, ¬ ShortAt env geometry.sectorsize
          (fileItems env map geometry fsTreeRoot objectid dev.answer).1 p)) ∧
    (∀ offset buf k buf',
      (readFileAt env map geometry fsTreeRoot objectid offset buf).run dev.answer = .ok (k, buf') →
      (Genuine (fileByte env map geometry.sectorsize dev
          (fileItems env map geometry fsTreeRoot objectid dev.answer).1) offset (buf'.take k) ↔
        (env.overflowChecks = false → ∀ i < k, ¬ OverflowsAt env
          (fileItems env map geometry fsTreeRoot objectid dev.answer).1 (offset + i)))) ∧
    (∀ out, (readLink env map geometry fsTreeRoot objectid).run dev.answer = .ok out →
      ∃ x xs e compression payload plain,
        (fileItems env map geometry fsTreeRoot objectid dev.answer).1 = x :: xs ∧
        extentOf env x = .ok e ∧ e.backing = .inline compression payload ∧
        inlinePlain env geometry.sectorsize compression payload = .ok plain ∧
        (out.length = m.size ↔ m.size ≤ plain.length) ∧
        (HoldsTarget m.size x e plain →
          Genuine (fileByte env map geometry.sectorsize dev (x :: xs)) 0 out) ∧
        ((∀ p < m.size, declarer env xs p = none) → 0 ∉ plain.take m.size →
          (out.length = m.size ∧
              Genuine (fileByte env map geometry.sectorsize dev (x :: xs)) 0 out ↔
            HoldsTarget m.size x e plain))) ∧
    ∀ data e i len plain, Extent.parse data = .ok e →
      (∀ compression payload, e.backing = .inline compression payload →
        inlinePlain env geometry.sectorsize compression payload = .ok plain →
        plain.length < i + len → i + len < 2 ^ 64 →
        (copyExtentSlice env map geometry.sectorsize data i len).run dev.answer =
          err (.corruptBtree "extent_underdecoded" 0)) ∧
      ∀ compression regular, e.backing = .packed compression regular →
        (readCompressed env map geometry.sectorsize compression regular).run dev.answer =
          .ok plain →
        (plain.length < regular.offset + i + len → regular.offset + i + len < 2 ^ 64 →
          (copyExtentSlice env map geometry.sectorsize data i len).run dev.answer =
            err (.corruptBtree "extent_underdecoded" regular.diskBytenr)) ∧
        ∀ out fileSize, fileSize < 2 ^ 64 → 0 < min e.declared (fileSize - out.length) →
          plain.length < regular.offset + min e.declared (fileSize - out.length) →
          regular.offset + min e.declared (fileSize - out.length) < 2 ^ 64 →
          (applyExtent env map geometry.sectorsize out data fileSize).run dev.answer =
            err (.corruptBtree "extent_underdecoded" regular.diskBytenr) :=
  ⟨fun _ hv => readFile_genuine_iff h64 hmeta hv,
    fun _ _ _ _ hat => readFileAt_genuine_iff h64 hmeta hat,
    fun _ hout => readLink_genuine h64 hmeta hout,
    fun _ _ _ _ _ hparse => refuses_underdecoded h64 dev.answer hparse⟩

end Agreement

/-! ### A short payload -/

/-- The item of the third file of the sample volume: eight bytes, declared by an inline
extent that holds three. -/
def shortExtent : List UInt8 := leBytes 24 (image [(8, 8), (21, 0x636261)])

set_option maxRecDepth 100000 in
/-- That file is read with zeros for the bytes that are not stored. -/
theorem short_file :
    (readMetadata referenceEnv sampleMap 4096 0x100000 259).run sampleVolume.device.answer =
      .ok { size := 8, nbytes := 0, nlink := 0, mode := 0o100644, uid := 0, gid := 0,
            generation := 0 } ∧
    (readFile referenceEnv sampleMap sampleGeometry 0x100000 259).run sampleVolume.device.answer =
      .ok [97, 98, 99, 0, 0, 0, 0, 0] ∧
    fileByte referenceEnv sampleMap 4096 sampleVolume.device (fileItems referenceEnv sampleMap
      sampleGeometry 0x100000 259 sampleVolume.device.answer).1 3 = none ∧
    Extent.parse shortExtent = .ok { declared := 8, backing := .inline 0 [97, 98, 99] } := by
  decide +kernel

/-- `read_file` returns zeros for the bytes that are not stored. -/
theorem fabricated_data :
    (readFile referenceEnv sampleMap sampleGeometry 0x100000 259).run sampleVolume.device.answer =
      .ok [97, 98, 99, 0, 0, 0, 0, 0] ∧
    ¬ Genuine (fileByte referenceEnv sampleMap 4096 sampleVolume.device
      (fileItems referenceEnv sampleMap sampleGeometry 0x100000 259 sampleVolume.device.answer).1)
      0 [97, 98, 99, 0, 0, 0, 0, 0] := by
  obtain ⟨-, hread, hbyte, -⟩ := short_file
  refine ⟨hread, fun h => ?_⟩
  have hzero := h 3 0 rfl
  rw [Nat.zero_add, hbyte] at hzero
  cases hzero

def spreadGeometry : Geometry where
  nodesize := 4096
  sectorsize := 4096
  validNodesize := sampleNodesize
  validSectorsize := sampleGeometry.validSectorsize

/-- The symlink of the sample tree of two levels: its inode and its one extent. -/
theorem spread_link :
    (spreadItems.filter fun y => y.1.objectid == 258 && y.1.itemType == inodeItemKey).map
      (fun y => (decide (InodeItem.sizeOf ≤ y.2.length), (InodeItem.readAt y.2 0).metadata)) =
        [(true, { size := 6, nbytes := 0, nlink := 0, mode := 0o120777, uid := 0, gid := 0,
                  generation := 0 })] ∧
    (spreadItems.filter fun y => y.1.objectid == 258 && y.1.itemType == extentDataKey).map
      (fun y => (y.1.offset, Extent.parse y.2)) =
        [(0, .ok { declared := 6, backing := .inline 0 [97, 50, 48, 113, 115, 114] })] := by
  decide +kernel

/-- So one of the file's positions is short, and to copy from there is refused.  The
target of the symlink is returned as it is stored. -/
theorem no_fabricated_data_sample :
    (∃ p < 8, ShortAt referenceEnv 4096 (fileItems referenceEnv sampleMap sampleGeometry 0x100000
      259 sampleVolume.device.answer).1 p) ∧
    (copyExtentSlice referenceEnv sampleMap 4096 shortExtent 2 4).run sampleVolume.device.answer =
      err (.corruptBtree "extent_underdecoded" 0) ∧
    (readLink referenceEnv spreadMap spreadGeometry 0x100000 258).run spreadVolume.device.answer =
      .ok [97, 50, 48, 113, 115, 114] ∧
    Genuine (fileByte referenceEnv spreadMap 4096 spreadVolume.device (fileItems referenceEnv
      spreadMap spreadGeometry 0x100000 258 spreadVolume.device.answer).1) 0
        [97, 50, 48, 113, 115, 114] := by
  obtain ⟨hmeta, hread, hbyte, hparse⟩ := short_file
  obtain ⟨hfile, -, -, hrefused⟩ := @no_fabricated_data referenceEnv referenceEnv_usize64 sampleMap
    sampleGeometry 0x100000 259 sampleVolume.device _ hmeta
  refine ⟨?_, (hrefused shortExtent _ 2 4 [97, 98, 99] hparse).1 0 _ rfl rfl (by decide)
    (by decide), ?_⟩
  · by_contra hnone
    have hzero := (hfile _ hread).mpr (fun p hp hshort => hnone ⟨p, hp, hshort⟩) 3 0 rfl
    rw [Nat.zero_add] at hzero
    cases hzero.symm.trans hbyte
  -- the symlink's first item holds its target
  obtain ⟨hinode, hextent⟩ := spread_link
  have hholds := spread_holds
  have hlink := hholds.readMetadata referenceEnv_usize64 sampleNodesize (by decide) spread_at
    (by decide) hinode
  obtain ⟨x, hitems, hx⟩ := List.map_eq_singleton_iff.mp ((hholds.extents 258).trans hextent)
  obtain ⟨hstart, he⟩ := Prod.mk.inj hx
  have hrun := @readLink_run referenceEnv referenceEnv_usize64 spreadMap spreadGeometry 0x100000 258
    spreadVolume.device 1 (by decide) spreadTree spread_at _ hlink (by decide) x
    (by rw [hitems]; rfl) _ he 0 _ _ rfl rfl
  refine ⟨hrun, ?_⟩
  obtain ⟨y, ys, e, compression, payload, plain, hfirst, he', hb, hplain, -, htarget, -⟩ :=
    (@no_fabricated_data referenceEnv referenceEnv_usize64 spreadMap spreadGeometry 0x100000 258
      spreadVolume.device _ hlink).2.2.1 _ hrun
  have htree := @fileItems_tree referenceEnv referenceEnv_usize64 spreadMap spreadGeometry 258
    spreadVolume.device 1 (by decide) spreadTree 0x100000 spread_at (by decide)
  rw [htree, hitems] at hfirst ⊢
  cases hfirst
  rw [he] at he'
  cases he'
  cases hb
  cases hplain
  exact htarget ⟨by decide, fun _ => ⟨hstart, by decide⟩⟩
