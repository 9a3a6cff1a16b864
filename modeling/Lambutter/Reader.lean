/-
The block reader and the computations that use it.

`ReadM` is a computation of the crate that may call `read_at`.  A request is
answered with exactly the bytes it asked for, or not at all; nothing else is
assumed of a reader, so statements about every run of a `ReadM` hold for readers
that fail at will or change their mind.

A `Device` is an image behind a reader that answers each request the same way
every time; a `SliceDevice` is the crate's own adapter for byte slices.

The notes in a run's trace change nothing in it.  They name the steps that
statements about a whole run count: blocks read, leaves and items a walk takes,
and extents handed to `copy_extent_slice`.
-/
import Lambutter.Programs
import Lambutter.Format

/-! ### Requests and answers -/

/-- The arguments of `read_at`: an absolute offset and the buffer's length. -/
structure ReadReq where
  offset : ℕ
  len : ℕ
  deriving DecidableEq, Repr

/-- All the bytes asked for, or an error of the reader's own. -/
abbrev Ans (q : ReadReq) : Type := Option {bs : List UInt8 // bs.length = q.len}

/-- One tree block in memory: parsed header and the raw bytes. -/
structure TreeBlock where
  header : Header
  body : List UInt8
  deriving DecidableEq, Repr

/-- Notes that statements about runs refer to. -/
inductive Event
  /-- `read_tree_block` was entered for this logical address. -/
  | block (logical : ℕ)
  /-- A walk goes through this leaf. -/
  | leaf (block : TreeBlock)
  /-- A walk takes this item of a leaf. -/
  | item (block : TreeBlock) (item : LeafItem)
  /-- `copy_extent_slice` was entered for this item data and position. -/
  | slice (data : List UInt8) (inExtentOffset : ℕ)
  /-- The output of `read_file` has this length now. -/
  | output (length : ℕ)
  /-- A buffer of this length was allocated for a compressed extent. -/
  | compressed (length : ℕ)
  deriving DecidableEq, Repr

abbrev ReadM := Prog ReadReq Ans Event Stop

/-- `reader.read_at(offset, &mut buf[..len])`. -/
def tryReadAt (offset len : ℕ) : ReadM (Option (List UInt8)) :=
  .ask ⟨offset, len⟩ fun a => pure (a.map Subtype.val)

/-- `reader.read_at(offset, &mut buf[..len]).map_err(|_| e)?`. -/
def readAt (offset len : ℕ) (e : Error) : ReadM (List UInt8) := do
  match ← tryReadAt offset len with
  | some bs => return bs
  | none => (err e : Outcome (List UInt8))

def note (e : Event) : ReadM Unit := .note e (pure ())

@[simp] theorem trace_note_event (g : (q : ReadReq) → Ans q) (e : Event) :
    Prog.trace g (note e) = [e] := rfl

@[simp] theorem run_note_event (g : (q : ReadReq) → Ans q) (e : Event) :
    Prog.run g (note e) = .ok () := rfl

theorem sat_note_bind {α : Type} {e : Event} {f : Unit → ReadM α}
    {P : List Event → Outcome α → Prop} :
    Prog.Sat (note e >>= f) P ↔ (f ()).Sat fun t r => P (e :: t) r := Iff.rfl

/-- A successful read brings exactly the bytes asked for. -/
theorem readAt_ensures (offset len : ℕ) (e : Error) :
    Prog.Ensures Stop.Typed (readAt offset len e) fun bs => bs.length = len := by
  intro a
  cases a with
  | none => exact trivial
  | some bs => exact bs.2

theorem tryReadAt_ensures (offset len : ℕ) :
    Prog.Ensures Stop.Typed (tryReadAt offset len) fun a => ∀ bs ∈ a, bs.length = len := by
  intro a
  cases a with
  | none => exact fun bs hbs => by cases hbs
  | some bs =>
    intro bs' hbs'
    cases hbs'
    exact bs.2

theorem readAt_asks {P : ReadReq → Prop} {offset len : ℕ} (h : P ⟨offset, len⟩) (e : Error) :
    (readAt offset len e).Asks P := by
  refine ⟨h, fun a => ?_⟩
  cases a <;> trivial

/-! ### Devices -/

/-- An image, and which requests its reader serves; offsets are `u64`. -/
structure Device where
  byte : ℕ → UInt8
  serves : ℕ → ℕ → Bool
  serves_le : ∀ {offset len}, serves offset len = true → offset + len ≤ 2 ^ 64

namespace Device

/-- The `len` bytes of the image from `offset` on. -/
def bytes (dev : Device) (offset len : ℕ) : List UInt8 :=
  (List.range len).map fun i => dev.byte (offset + i)

theorem length_bytes (dev : Device) (offset len : ℕ) : (dev.bytes offset len).length = len := by
  simp [bytes]

theorem getElem?_bytes (dev : Device) {offset len i : ℕ} (h : i < len) :
    (dev.bytes offset len)[i]? = some (dev.byte (offset + i)) := by
  simp [bytes, h]

def answer (dev : Device) (q : ReadReq) : Ans q :=
  if dev.serves q.offset q.len then
    some ⟨dev.bytes q.offset q.len, dev.length_bytes q.offset q.len⟩
  else none

/-- A request is served when each of its bytes is. -/
def Bytewise (dev : Device) : Prop :=
  ∀ offset len, 0 < len → (∀ i < len, dev.serves (offset + i) 1 = true) →
    dev.serves offset len = true

theorem run_tryReadAt (dev : Device) (offset len : ℕ) :
    (tryReadAt offset len).run dev.answer =
      .ok (if dev.serves offset len then some (dev.bytes offset len) else none) := by
  unfold tryReadAt
  rw [Prog.run_ask, Prog.run_pure]
  unfold answer
  dsimp only
  split_ifs
  · rfl
  · rfl

theorem run_readAt (dev : Device) (offset len : ℕ) (e : Error) :
    (readAt offset len e).run dev.answer =
      if dev.serves offset len then .ok (dev.bytes offset len) else err e := by
  show Prog.run dev.answer (Prog.ask ⟨offset, len⟩ _ >>= _) = _
  rw [Prog.run_bind, Prog.run_ask]
  unfold answer
  cases dev.serves offset len <;> rfl

end Device

/-- A byte slice as a device: `impl BlockRead for &[u8]`. -/
structure SliceDevice where
  size : ℕ
  byte : ℕ → UInt8
  size_lt : size < 2 ^ 64

namespace SliceDevice

/-- The bounds check of the adapter. -/
def inBounds (s : SliceDevice) (offset len : ℕ) : Bool :=
  (checkedAdd 64 offset len).any fun stop => decide (stop ≤ s.size)

theorem inBounds_iff {s : SliceDevice} {offset len : ℕ} :
    s.inBounds offset len = true ↔ offset + len ≤ s.size := by
  have hsize := s.size_lt
  unfold inBounds checkedAdd
  split_ifs with h
  · simp
  · simp only [Option.any_none, Bool.false_eq_true, false_iff]
    omega

def device (s : SliceDevice) : Device where
  byte := s.byte
  serves := s.inBounds
  serves_le h := (inBounds_iff.mp h).trans s.size_lt.le

theorem serves_iff {s : SliceDevice} {offset len : ℕ} :
    s.device.serves offset len = true ↔ offset + len ≤ s.size := inBounds_iff

theorem bytewise (s : SliceDevice) : s.device.Bytewise := by
  intro offset len hlen h
  have hlast := serves_iff.mp (h (len - 1) (by omega))
  exact serves_iff.mpr (by omega)

end SliceDevice
