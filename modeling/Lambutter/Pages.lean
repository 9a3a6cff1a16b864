/-
Volumes given page by page.

A page of 4096 bytes is one number.  What a tree block in such a page holds is then read
off the number, and a volume is put together from its pages without running over the
bytes of the image.
-/
import Lambutter.Btree

/-! ### Fields of a number -/

/-- The field of `width` bytes at `p`. -/
def fieldOf (page p width : ℕ) : ℕ :=
  Nat.mod (Nat.shiftRight page (Nat.mul 8 p)) (Nat.pow 256 width)

theorem shiftRight_bytes (page p : ℕ) : page >>> (8 * p) = page / 256 ^ p := by
  rw [Nat.shiftRight_eq_div_pow, Nat.pow_mul]

theorem drop_leBytes (page p width : ℕ) :
    (leBytes width page).drop p = leBytes (width - p) (page / 256 ^ p) := by
  induction p generalizing width page with
  | zero => rw [List.drop_zero, Nat.sub_zero, Nat.pow_zero, Nat.div_one]
  | succ p ih =>
    cases width with
    | zero =>
      rw [Nat.zero_sub]
      rfl
    | succ width =>
      rw [leBytes, List.drop_succ_cons, ih, Nat.add_sub_add_right, Nat.div_div_eq_div_mul,
        ← Nat.pow_succ']

theorem take_leBytes (page : ℕ) {k width : ℕ} (h : k ≤ width) :
    (leBytes width page).take k = leBytes k page := by
  induction k generalizing width page with
  | zero => rfl
  | succ k ih =>
    obtain ⟨width, rfl⟩ := Nat.exists_eq_add_of_lt (Nat.lt_of_lt_of_le (Nat.succ_pos k) h)
    rw [Nat.zero_add] at h ⊢
    rw [leBytes, List.take_succ_cons, ih _ (Nat.le_of_succ_le_succ h)]
    rfl

theorem leValue_leBytes_mod (width v : ℕ) : leValue (leBytes width v) = v % 256 ^ width := by
  induction width generalizing v with
  | zero => exact (Nat.mod_one v).symm
  | succ width ih =>
    have hbyte : (UInt8.ofNat v).toNat = v % 256 := UInt8.toNat_ofNat'
    rw [leBytes, leValue, hbyte, ih, Nat.pow_succ', Nat.mod_mul]

theorem leAt_page (page : ℕ) {p k width : ℕ} (h : p + k ≤ width) :
    leAt (leBytes width page) p k = fieldOf page p k := by
  unfold leAt
  rw [drop_leBytes, take_leBytes _ (by omega), leValue_leBytes_mod, ← shiftRight_bytes]
  rfl

/-! ### A block in a page -/

def pageBlock (page : ℕ) : TreeBlock where
  header := Header.readAt (leBytes 4096 page)
  body := leBytes 4096 page

/-- The item whose header is at `p`. -/
def itemOf (page p : ℕ) : LeafItem where
  key := ⟨fieldOf page p 8, fieldOf page (p + 8) 1, fieldOf page (p + 9) 8⟩
  offset := fieldOf page (p + 17) 4
  size := fieldOf page (p + 21) 4

/-- The key pointer at `p`. -/
def ptrOf (page p : ℕ) : KeyPtr where
  key := ⟨fieldOf page p 8, fieldOf page (p + 8) 1, fieldOf page (p + 9) 8⟩
  blockptr := fieldOf page (p + 17) 8

/-- The keys of a leaf's items with their data. -/
def pageItems (page : ℕ) : List (DiskKey × List UInt8) :=
  (List.range (fieldOf page 96 4)).map fun i =>
    let item := itemOf page (101 + 25 * i)
    (item.key, leBytes item.size (Nat.shiftRight page (Nat.mul 8 (101 + item.offset))))

/-- The keys of a node's children and their addresses. -/
def pagePtrs (page : ℕ) : List KeyPtr :=
  (List.range (fieldOf page 96 4)).map fun i => ptrOf page (101 + 33 * i)

/-- The items lie inside the page. -/
def PageFits (page : ℕ) : Prop :=
  101 + 25 * fieldOf page 96 4 ≤ 4096 ∧ ∀ i < fieldOf page 96 4,
    101 + (itemOf page (101 + 25 * i)).offset + (itemOf page (101 + 25 * i)).size ≤ 4096

instance (page : ℕ) : Decidable (PageFits page) := inferInstanceAs (Decidable (_ ∧ _))

section Blocks

variable {env : Env}

theorem readAt_page (page : ℕ) {p : ℕ} (h : p + 25 ≤ 4096) :
    LeafItem.readAt (leBytes 4096 page) p = itemOf page p := by
  unfold LeafItem.readAt DiskKey.readAt itemOf
  rw [leAt_page _ (by omega), leAt_page _ (by omega), leAt_page _ (by omega),
    leAt_page _ (by omega), leAt_page _ (by omega)]

theorem items_page {page : ℕ} (h : PageFits page) : (pageBlock page).items =
    (List.range (fieldOf page 96 4)).map fun i => itemOf page (101 + 25 * i) := by
  have hcount : (pageBlock page).header.nritems = fieldOf page 96 4 := leAt_page page (by omega)
  unfold TreeBlock.items
  rw [hcount]
  refine List.map_congr_left fun i hi => ?_
  have hlt := List.mem_range.mp hi
  have hfits := h.1
  exact readAt_page page (by omega)

/-- What a leaf in a page holds. -/
theorem data_page (h64 : env.usizeBits = 64) {page : ℕ} (h : PageFits page) :
    (pageBlock page).items.map (fun item => (item.key, (pageBlock page).leafItemData env item)) =
      (pageItems page).map fun y => (y.1, .ok y.2) := by
  rw [items_page h, pageItems, List.map_map, List.map_map]
  refine List.map_congr_left fun i hi => ?_
  have hlt := List.mem_range.mp hi
  have hinside := h.2 i hlt
  have hlen : (pageBlock page).body.length = 4096 := length_leBytes _ _
  have hdata : (pageBlock page).leafItemData env (itemOf page (101 + 25 * i)) =
      .ok (leBytes (itemOf page (101 + 25 * i)).size
        (Nat.shiftRight page (Nat.mul 8 (101 + (itemOf page (101 + 25 * i)).offset)))) := by
    rw [TreeBlock.leafItemData_eq h64 (by omega) (by omega), if_neg (by omega)]
    refine congrArg _ ?_
    show ((leBytes 4096 page).drop _).take _ = leBytes _ (page >>> (8 * _))
    rw [drop_leBytes, take_leBytes _ (by omega), shiftRight_bytes]
  exact Prod.ext rfl hdata

/-- The pointers of a node in a page. -/
theorem keyPtrs_page {page : ℕ} (h : 101 + 33 * fieldOf page 96 4 ≤ 4096) :
    (pageBlock page).keyPtrs = pagePtrs page := by
  have hcount : (pageBlock page).header.nritems = fieldOf page 96 4 := leAt_page page (by omega)
  unfold TreeBlock.keyPtrs pagePtrs
  rw [hcount]
  refine List.map_congr_left fun i hi => ?_
  have hlt := List.mem_range.mp hi
  show KeyPtr.readAt (leBytes 4096 page) (101 + 33 * i) = ptrOf page (101 + 33 * i)
  unfold KeyPtr.readAt DiskKey.readAt ptrOf
  rw [leAt_page _ (by omega), leAt_page _ (by omega), leAt_page _ (by omega),
    leAt_page _ (by omega)]

theorem level_page (page : ℕ) : (pageBlock page).header.level = fieldOf page 100 1 :=
  leAt_page page (by omega)

/-- The checks on a block in a page. -/
def PageChecked (env : Env) (page logical : ℕ) : Prop :=
  verifyCrc32c env ((leBytes 4096 page).drop 32) ((leBytes 4096 page).take 32) = true ∧
    fieldOf page 48 8 = logical ∧ validateKeysStrictlyAscending env (pageBlock page) = .ok ()

instance (env : Env) (page logical : ℕ) : Decidable (PageChecked env page logical) :=
  inferInstanceAs (Decidable (_ ∧ _))

theorem acceptBlock_page {page logical : ℕ} (h : PageChecked env page logical) :
    acceptBlock env logical (leBytes 4096 page) = .ok (pageBlock page) := by
  obtain ⟨hcsum, hbytenr, hkeys⟩ := h
  have hlen : (leBytes 4096 page).length = 4096 := length_leBytes _ _
  have hcovered : ((leBytes 4096 page).drop csumLen).take ((leBytes 4096 page).length - csumLen) =
      (leBytes 4096 page).drop 32 :=
    List.take_of_length_le (le_of_eq (List.length_drop))
  have hstored : (Header.readAt (leBytes 4096 page)).csum = (leBytes 4096 page).take 32 := rfl
  have haddress : (Header.readAt (leBytes 4096 page)).bytenr = logical :=
    (leAt_page page (by omega)).trans hbytenr
  have hsz : Header.size = 101 := rfl
  have hcl : csumLen = 32 := rfl
  unfold acceptBlock
  rw [Header.parse_eq, if_neg (by omega), Except.ok_bind, okOr_some, Except.ok_bind,
    slice_ok (by omega) le_rfl, Except.ok_bind, hcovered, hstored, if_neg (not_not.mpr hcsum),
    if_neg (not_not.mpr haddress)]
  show (validateKeysStrictlyAscending env (pageBlock page) >>= _) = _
  rw [hkeys]
  rfl

end Blocks

/-! ### Images that are one number -/

theorem getElem?_leBytes (v : ℕ) {i width : ℕ} (h : i < width) :
    (leBytes width v)[i]? = some (UInt8.ofNat (v / 256 ^ i)) := by
  have hhead : (leBytes (width - i) (v / 256 ^ i))[0]? = some (UInt8.ofNat (v / 256 ^ i)) := by
    obtain ⟨k, hk⟩ := Nat.exists_eq_add_of_lt (Nat.sub_pos_of_lt h)
    rw [hk, Nat.zero_add, leBytes]
    rfl
  rw [← hhead, ← drop_leBytes, List.getElem?_drop, Nat.add_zero]

/-- The digits of a number, byte by byte. -/
theorem eq_leBytes {bytes : List UInt8} {width v : ℕ} (hlen : bytes.length = width)
    (h : ∀ i < width, bytes[i]? = some (UInt8.ofNat (v / 256 ^ i))) : bytes = leBytes width v := by
  refine List.ext_getElem? fun i => ?_
  by_cases hi : i < width
  · rw [h i hi, getElem?_leBytes _ hi]
  · rw [List.getElem?_eq_none (by omega), List.getElem?_eq_none (by rw [length_leBytes]; omega)]

/-- The requests to such an image, answered without a run over all its bytes. -/
def numbered (image size : ℕ) (q : ReadReq) : Ans q :=
  if (checkedAdd 64 q.offset q.len).any fun stop => decide (stop ≤ size) then
    some ⟨leBytes q.len (fieldOf image q.offset q.len), length_leBytes _ _⟩
  else none

theorem leBytes_mod (width v : ℕ) : leBytes width (v % 256 ^ width) = leBytes width v := by
  refine eq_leBytes (length_leBytes _ _) fun i hi => ?_
  have hwidth : 256 ^ width = 256 ^ i * 256 ^ (width - i) := by
    rw [← Nat.pow_add, Nat.add_sub_cancel' hi.le]
  rw [getElem?_leBytes _ hi]
  refine congrArg some (UInt8.toNat_inj.mp ?_)
  rw [UInt8.toNat_ofNat', UInt8.toNat_ofNat', hwidth, Nat.mod_mul_right_div_self]
  exact Nat.mod_mod_of_dvd _ (dvd_pow_self 256 (by omega))

theorem answer_ofNat (image size : ℕ) (h : size < 2 ^ 64) :
    (SliceDevice.ofNat image size h).device.answer = numbered image size := by
  funext q
  have hbytes : (SliceDevice.ofNat image size h).device.bytes q.offset q.len =
      leBytes q.len (fieldOf image q.offset q.len) := by
    show _ = leBytes q.len (image >>> (8 * q.offset) % 256 ^ q.len)
    rw [leBytes_mod]
    refine eq_leBytes (Device.length_bytes _ _ _) fun i hi => ?_
    rw [Device.getElem?_bytes _ hi, shiftRight_bytes, Nat.div_div_eq_div_mul, ← Nat.pow_add,
      ← shiftRight_bytes]
    rfl
  unfold Device.answer
  by_cases hserves : (SliceDevice.ofNat image size h).device.serves q.offset q.len = true
  · have hnumbered : numbered image size q = some ⟨_, length_leBytes q.len _⟩ := if_pos hserves
    rw [if_pos hserves, hnumbered]
    exact congrArg some (Subtype.ext hbytes)
  · have hnumbered : numbered image size q = none := if_neg hserves
    rw [if_neg hserves, hnumbered]

/-! ### A device of pages -/

/-- The image with these pages; all others are zeros. -/
def SliceDevice.ofPages (pages : List (ℕ × ℕ)) (size : ℕ) (h : size < 2 ^ 64) : SliceDevice where
  size := size
  byte i := UInt8.ofNat (((pages.lookup (i / 4096)).getD 0) / 256 ^ (i % 4096))
  size_lt := h

theorem bytes_ofPages {pages : List (ℕ × ℕ)} {size k page : ℕ} (h : size < 2 ^ 64)
    (hpage : pages.lookup k = some page) :
    (SliceDevice.ofPages pages size h).device.bytes (4096 * k) 4096 = leBytes 4096 page := by
  refine eq_leBytes (Device.length_bytes _ _ _) fun i hi => ?_
  rw [Device.getElem?_bytes _ hi]
  show some (UInt8.ofNat ((((pages.lookup ((4096 * k + i) / 4096)).getD 0)) /
    256 ^ ((4096 * k + i) % 4096))) = _
  have hdiv : (4096 * k + i) / 4096 = k := by omega
  have hmod : (4096 * k + i) % 4096 = i := by omega
  rw [hdiv, hmod, hpage, Option.getD_some]

/-! ### Pages made from items -/

/-- The items to be stored, each with its bytes. -/
def storedItems (items : List SampleItem) : List (DiskKey × List UInt8) :=
  items.map fun item => (item.1, leBytes item.2.1 (image item.2.2))

/-- The page is a leaf that is accepted at `logical` and holds these items. -/
def LeafPage (env : Env) (page logical : ℕ) (items : List SampleItem) : Prop :=
  PageChecked env page logical ∧ PageFits page ∧ fieldOf page 100 1 = 0 ∧
    pageItems page = storedItems items

/-- The page is a node over leaves that is accepted at `logical` and points to these. -/
def NodePage (env : Env) (page logical : ℕ) (ptrs : List (DiskKey × ℕ)) : Prop :=
  PageChecked env page logical ∧ 101 + 33 * fieldOf page 96 4 ≤ 4096 ∧ fieldOf page 100 1 = 1 ∧
    pagePtrs page = ptrs.map fun ptr => ⟨ptr.1, ptr.2⟩

instance (env : Env) (page logical : ℕ) (items : List SampleItem) :
    Decidable (LeafPage env page logical items) :=
  inferInstanceAs (Decidable (_ ∧ _))

instance (env : Env) (page logical : ℕ) (ptrs : List (DiskKey × ℕ)) :
    Decidable (NodePage env page logical ptrs) :=
  inferInstanceAs (Decidable (_ ∧ _))

section Made

variable {env : Env} {page logical : ℕ}

theorem LeafPage.level {items : List SampleItem} (h : LeafPage env page logical items) :
    (pageBlock page).header.level = 0 := (level_page page).trans h.2.2.1

theorem LeafPage.data {items : List SampleItem} (h64 : env.usizeBits = 64)
    (h : LeafPage env page logical items) :
    (pageBlock page).items.map (fun item => (item.key, (pageBlock page).leafItemData env item)) =
      (storedItems items).map fun y => (y.1, .ok y.2) := by
  rw [data_page h64 h.2.1, h.2.2.2]

theorem LeafPage.keys {items : List SampleItem} (h64 : env.usizeBits = 64)
    (h : LeafPage env page logical items) :
    (pageBlock page).items.map LeafItem.key = items.map Prod.fst := by
  have hkeys := congrArg (List.map Prod.fst) (h.data h64)
  rwa [storedItems, List.map_map, List.map_map, List.map_map] at hkeys

end Made
