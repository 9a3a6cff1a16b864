/-
Sessions: what the calls of a mounted volume depend on.

A `Request` is a call of the public interface with its arguments.  What the bodies do is
settled in `AddressSpace`; here it is used three times:

* a call depends on the logical bytes only, wherever the chunks put them on whichever
  device (`reply_reproduced`);
* it stops at the first request that the reader fails, with the error of that request,
  and otherwise replies as if the reader never failed (`session_failStop`);
* it asks for bytes inside the stripes of the local device and for no others
  (`records_confined`).
-/
import Lambutter.AddressSpace
import Lambutter.Handles
import Lambutter.Streaming

open Prog

namespace Btrfs

/-! ### The public interface -/

section Interface

variable (env : Env) (fs : Btrfs)

/-- `Btrfs::read_file`: the content of the file at `path`. -/
def readFileOf (path : Path) : ReadM (List UInt8) := do
  let inode ← fs.resolve env path
  readFile env fs.chunkMap fs.geometry inode.treeRoot inode.objectid

/-- `Btrfs::read_file_at`. -/
def readInodeAt (inode : Inode) (offset : ℕ) (buf : List UInt8) : ReadM (ℕ × List UInt8) :=
  readFileAt env fs.chunkMap fs.geometry inode.treeRoot inode.objectid offset buf

/-- `Btrfs::read_link`: the target of the symlink at `path`. -/
def readLinkOf (path : Path) : ReadM (List UInt8) := do
  let inode ← fs.resolve env path
  readLink env fs.chunkMap fs.geometry inode.treeRoot inode.objectid

end Interface

inductive Request
  | resolve (path : Path)
  | metadata (inode : Inode)
  | readFile (path : Path)
  | readFileAt (inode : Inode) (offset : ℕ) (buf : List UInt8)
  | readLink (path : Path)
  | readDir (path : Path)

inductive Reply
  | inode (inode : Inode)
  | metadata (metadata : Metadata)
  | bytes (bytes : List UInt8)
  | count (n : ℕ) (buf : List UInt8)
  | entries (entries : List DirEntry)
  deriving DecidableEq

/-- The call that a request stands for. -/
def Request.program (env : Env) (fs : Btrfs) : Request → ReadM Reply
  | .resolve path => Reply.inode <$> fs.resolve env path
  | .metadata inode => Reply.metadata <$> Btrfs.metadata env fs inode
  | .readFile path => Reply.bytes <$> fs.readFileOf env path
  | .readFileAt inode offset buf =>
    (fun r => Reply.count r.1 r.2) <$> fs.readInodeAt env inode offset buf
  | .readLink path => Reply.bytes <$> fs.readLinkOf env path
  | .readDir path => Reply.entries <$> fs.readDirAt env path

/-- The same volume behind another chunk map. -/
structure SameVolume (fs fs' : Btrfs) : Prop where
  geometry : fs'.geometry = fs.geometry
  rootTreeRoot : fs'.rootTreeRoot = fs.rootTreeRoot
  root : fs'.root = fs.root

theorem SameVolume.refl (fs : Btrfs) : SameVolume fs fs := ⟨rfl, rfl, rfl⟩

section Alike

variable {β : Type} {env : Env} {fs fs' : Btrfs} (hsame : SameVolume fs fs')

include hsame

theorem SameVolume.nodesize : fs'.trees.nodesize = fs.trees.nodesize :=
  congrArg Geometry.nodesize hsame.geometry

theorem resolve_alike {B : PartRel β}
    (hB : Blocks env B fs.geometry.nodesize fs.chunkMap fs'.chunkMap) (path : Path) :
    Alike B (fs.resolve env path) (fs'.resolve env path) := by
  unfold Btrfs.resolve
  rw [hsame.root]
  exact resolvePath_alike hB hsame.nodesize hsame.rootTreeRoot fs.root path

/-- The calls that read tree blocks and no file contents. -/
def Request.Structural : Request → Prop
  | .resolve _ => True
  | .metadata _ => True
  | .readDir _ => True
  | _ => False

/-- Such a call on one of two volumes is built like the same call on the other. -/
theorem structural_alike {B : PartRel β}
    (hB : Blocks env B fs.geometry.nodesize fs.chunkMap fs'.chunkMap) {r : Request}
    (hr : r.Structural) : Alike B (r.program env fs) (r.program env fs') := by
  have hresolve := resolve_alike hsame hB
  cases r with
  | resolve path => exact Alike.bind (hresolve path) fun _ => alike_pure _
  | metadata inode =>
    refine Alike.bind ?_ fun _ => alike_pure _
    unfold Btrfs.metadata
    rw [hsame.geometry]
    exact readMetadata_alike hB _ _
  | readDir path =>
    refine Alike.bind (Alike.bind (hresolve path) fun inode => ?_) fun _ => alike_pure _
    exact readDir_alike hB hsame.nodesize hsame.rootTreeRoot inode
  | readFile path => exact absurd hr id
  | readFileAt inode offset buf => exact absurd hr id
  | readLink path => exact absurd hr id

/-- Every call on one of two such volumes is built like the same call on the other. -/
theorem program_alike (h64 : env.usizeBits = 64) {B : ReadRel}
    (hB : Mapped env B fs.chunkMap fs'.chunkMap) (r : Request) :
    Alike B (r.program env fs) (r.program env fs') := by
  have hblocks := hB.blocks h64 fs.geometry.validNodesize
  have hresolve := resolve_alike hsame hblocks
  cases r with
  | resolve path => exact structural_alike hsame hblocks trivial
  | metadata inode => exact structural_alike hsame hblocks trivial
  | readDir path => exact structural_alike hsame hblocks trivial
  | readFile path =>
    refine Alike.bind (Alike.bind (hresolve path) fun inode => ?_) fun _ => alike_pure _
    rw [hsame.geometry]
    exact readFile_alike h64 hB fs.geometry _ _
  | readFileAt inode offset buf =>
    refine Alike.bind ?_ fun _ => alike_pure _
    unfold readInodeAt
    rw [hsame.geometry]
    exact readFileAt_alike h64 hB fs.geometry _ _ _ _
  | readLink path =>
    refine Alike.bind (Alike.bind (hresolve path) fun inode => ?_) fun _ => alike_pure _
    rw [hsame.geometry]
    exact readLink_alike h64 hB fs.geometry _ _

end Alike

end Btrfs

/-! ### Two layouts of the same bytes -/

/-- The errors of a logical read: the address leads nowhere, or the reader failed there. -/
inductive Unreached : Stop → Prop
  | unmapped (logical : ℕ) : Unreached (.err (.corruptBtree "chunk_unmapped" logical))
  | overflow (logical : ℕ) : Unreached (.err (.corruptBtree "chunk_overflow" logical))
  | profile (token : String) : Unreached (.err (.unsupportedProfile token))
  | io (context : String) (offset : ℕ) : Unreached (.err (.io context offset))

/-- Each logical byte that can be read through the first map on the first device can be
read through the second on the second, and is the same. -/
def Reproduces (env : Env) (map : ChunkMap) (dev : Device) (map' : ChunkMap) (dev' : Device) :
    Prop :=
  ∀ l, map.Readable env dev l →
    map'.Readable env dev' l ∧ map'.byteAt env dev' l = map.byteAt env dev l

section Layouts

variable {env : Env} {map map' : ChunkMap} {dev dev' : Device}

theorem ChunkMap.resolve_unreached {l : ℕ} {x : Stop} (h : map.resolve env l = .error x) :
    Unreached x := by
  by_cases hc : ∃ m ∈ map.mappings, m.Covers l
  · obtain ⟨m, hm, hcov⟩ := hc
    rw [ChunkMap.resolve_of_covers env hm hcov, ChunkMapping.resolveAt_eq hcov] at h
    rcases m.pickStripe_cases map.localDevid with ⟨s, hs⟩ | ⟨token, hs⟩
    · rw [hs, Except.ok_bind] at h
      split_ifs at h
      cases h
      exact .overflow l
    · rw [hs] at h
      cases h
      exact .profile token
  · rw [ChunkMap.resolve_of_not_covers env fun m hm hcov => hc ⟨m, hm, hcov⟩] at h
    cases h
    exact .unmapped l

/-- A walk over the chunks fails for want of an address or of the device only. -/
theorem fetch_unreached (context : String) (n len cursor : ℕ) (h : len < n) :
    Ensures Unreached (fetch env map (.io context) n len cursor) fun _ => True := by
  induction n generalizing len cursor with
  | zero => omega
  | succ n ih =>
    rw [fetch]
    by_cases hpos : 0 < len
    · rw [if_pos hpos]
      refine Ensures.bind (P := fun r => map.resolve env cursor = .ok r)
        (Ensures.lift (fun r hr => hr) fun x hx => ChunkMap.resolve_unreached hx) fun r hr => ?_
      have hc := (ChunkMap.contiguous_bounds hr).1
      have hread : Ensures Unreached (readAt r.physical (min len r.contiguousBytes)
          (.io context r.physical)) fun _ => True := by
        intro a
        cases a with
        | none => exact .io context r.physical
        | some bs => exact trivial
      refine Ensures.bind hread fun bs _ => ?_
      exact Ensures.bind (ih _ _ (by omega)) fun rest _ => Ensures.pure trivial
    · rw [if_neg hpos]
      exact Ensures.pure trivial

/-- A logical read brings the same bytes in both layouts, unless it fails in the first. -/
theorem run_fetch_reproduced (hdev : dev.Exact) (hdev' : dev'.Bytewise)
    (h : Reproduces env map dev map' dev') (context : String) (n len cursor : ℕ) (hn : len < n) :
    Upholds Unreached ((fetch env map (.io context) n len cursor).run dev.answer)
      ((fetch env map' (.io context) n len cursor).run dev'.answer) := by
  cases hrun : (fetch env map (.io context) n len cursor).run dev.answer with
  | error x => exact .inr ⟨x, rfl, (fetch_unreached context n len cursor hn).stops _ () hrun⟩
  | ok out =>
    obtain ⟨hlen, hbytes⟩ := run_fetch hrun
    have hreadable : ∀ i (hi : i < len), map.Readable env dev (cursor + i) ∧
        map.byteAt env dev (cursor + i) = out[i]? := by
      intro i hi
      obtain ⟨r, offset, k, hr, hserve, hle, hlt, hb⟩ := hbytes i (by omega)
      have hone := (hdev offset k (by omega)).mp hserve (r.physical - offset) (by omega)
      rw [Nat.add_sub_cancel' hle] at hone
      refine ⟨⟨r, hr, hone⟩, ?_⟩
      rw [ChunkMap.byteAt_of_resolve hr, ← hb, List.getElem?_eq_getElem]
    obtain ⟨out', hout'⟩ := exists_run_fetch hdev' (.io context) n len cursor hn
      fun i hi => (h _ (hreadable i hi).1).1
    obtain ⟨hlen', hbytes'⟩ := run_fetch hout'
    have hsame : out' = out := by
      refine List.ext_getElem (by omega) fun i hi' hi => ?_
      obtain ⟨r, offset, k, hr, -, -, -, hb⟩ := hbytes' i hi'
      obtain ⟨hread, hbyte⟩ := hreadable i (by omega)
      have heq := (h _ hread).2
      rw [ChunkMap.byteAt_of_resolve hr, hbyte, List.getElem?_eq_getElem hi] at heq
      rw [hb]
      exact Option.some.inj heq
    rw [hout', hsame]

/-- The logical reads of the two devices come to the same, unless one fails on the first. -/
abbrev Copies (dev dev' : Device) : ReadRel := fun p p' =>
  Upholds Unreached (p.run dev.answer) (p'.run dev'.answer)

theorem mapped_copies (hdev : dev.Exact) (hdev' : dev'.Bytewise)
    (h : Reproduces env map dev map' dev') : Mapped env (Copies dev dev') map map' :=
  fun context n len cursor hn => run_fetch_reproduced hdev hdev' h context n len cursor hn

/-- What holds of the logical reads holds of all that is built from them. -/
theorem copies_run {α : Type} {p p' : ReadM α} (h : Alike (Copies dev dev') p p') :
    Upholds Unreached (p.run dev.answer) (p'.run dev'.answer) :=
  h.upholds_run fun _ _ hq => hq

end Layouts

namespace Btrfs

/-- Wherever the chunks of a volume lie and on whichever device, a call replies the same as
long as the logical bytes are: a reply through one layout is the reply through every other
that reproduces its bytes, but for the errors of bytes the first cannot reach. -/
theorem reply_reproduced {env : Env} (h64 : env.usizeBits = 64) {fs fs' : Btrfs}
    (hsame : SameVolume fs fs') {dev dev' : Device} (hdev : dev.Exact) (hdev' : dev'.Bytewise)
    (h : Reproduces env fs.chunkMap dev fs'.chunkMap dev') (r : Request) :
    Upholds Unreached ((r.program env fs).run dev.answer)
      ((r.program env fs').run dev'.answer) :=
  copies_run (program_alike hsame h64 (mapped_copies hdev hdev' h) r)

end Btrfs

/-! ### The sample volume in another layout -/

/-- One chunk for what the sample keeps in two, at the start of the device. -/
def movedChunk : ChunkMapping where
  logical := 0x100000
  length := 0x4000
  ty := 0
  stripeLen := 65536
  numStripes := 1
  subStripes := 1
  stripes := [⟨7, 0, List.replicate 16 0⟩]

def movedMap : ChunkMap := ((ChunkMap.empty.setLocalDevid 7).insert movedChunk).2

/-- The two chunks of the sample volume back to back. -/
def movedVolume : SliceDevice where
  size := 0x5000
  byte i := if i < 0x1000 then sampleVolume.byte (0x1000 + i) else sampleVolume.byte (0x3000 + i)
  size_lt := by decide

theorem movedVolume_byte (i : ℕ) : movedVolume.device.byte i =
    sampleVolume.device.byte (if i < 0x1000 then 0x1000 + i else 0x3000 + i) := by
  show (if i < 0x1000 then _ else _) = _
  split_ifs
  · rfl
  · rfl

theorem movedMap_resolve {l : ℕ} (h1 : 0x100000 ≤ l) (h2 : l < 0x104000) :
    movedMap.resolve referenceEnv l = .ok ⟨7, 0 + (l - 0x100000), movedChunk.stop - l⟩ := by
  have hmem : movedChunk ∈ movedMap.mappings := by decide
  have hcov : movedChunk.Covers l := ⟨h1, h2⟩
  rw [ChunkMap.resolve_of_covers referenceEnv hmem hcov]
  exact (ChunkMapping.resolveAt_eq_ok hcov).mpr ⟨⟨7, 0, List.replicate 16 0⟩, by decide,
    show 0 + (l - 0x100000) < 2 ^ 64 by omega, rfl⟩

theorem moved_reproduces :
    Reproduces referenceEnv sampleMap sampleVolume.device movedMap movedVolume.device := by
  rintro l ⟨r, hr, -⟩
  obtain ⟨m, hm, hcov, hat⟩ := ChunkMap.resolve_eq_ok hr
  rw [show sampleMap.mappings = sampleChunks by decide] at hm
  obtain ⟨s, hs, -, rfl⟩ := (ChunkMapping.resolveAt_eq_ok hcov).mp hat
  have hplace : 0x100000 ≤ l ∧ l < 0x104000 ∧
      s.offset + (l - m.logical) = if l < 0x101000 then l - 0xff000 else l - 0xfd000 := by
    obtain ⟨hle, hlt⟩ := hcov
    simp only [sampleChunks, List.mem_cons, List.not_mem_nil, or_false] at hm
    rcases hm with rfl | rfl
    · change 0x100000 ≤ l at hle
      change l < 0x100000 + 0x1000 at hlt
      obtain rfl := Except.ok.inj hs
      refine ⟨hle, by omega, ?_⟩
      show 0x1000 + (l - 0x100000) = _
      rw [if_pos (by omega)]
      omega
    · change 0x101000 ≤ l at hle
      change l < 0x101000 + 0x3000 at hlt
      obtain rfl := Except.ok.inj hs
      refine ⟨by omega, by omega, ?_⟩
      show 0x4000 + (l - 0x101000) = _
      rw [if_neg (by omega)]
      omega
  obtain ⟨h1, h2, hphysical⟩ := hplace
  have hr' := movedMap_resolve h1 h2
  refine ⟨⟨_, hr', SliceDevice.serves_iff.mpr
    (show 0 + (l - 0x100000) + 1 ≤ 0x5000 by omega)⟩, ?_⟩
  rw [ChunkMap.byteAt_of_resolve hr', ChunkMap.byteAt_of_resolve hr]
  have hsame : (if 0 + (l - 0x100000) < 0x1000 then 0x1000 + (0 + (l - 0x100000))
      else 0x3000 + (0 + (l - 0x100000))) = s.offset + (l - m.logical) := by
    rw [hphysical]
    split_ifs <;> omega
  have hmoved : movedVolume.device.byte (0 + (l - 0x100000)) =
      sampleVolume.device.byte (s.offset + (l - m.logical)) := by
    rw [movedVolume_byte, hsame]
  rw [hmoved]

namespace Btrfs

/-- The sample volume behind a chunk map. -/
def sampleFs (map : ChunkMap) : Btrfs where
  chunkMap := map
  geometry := sampleGeometry
  rootTreeRoot := 0
  root := ⟨5, 0x100000, 256⟩

/-- The first file of the sample. -/
def sampleFile : Inode := ⟨5, 0x100000, 257⟩

set_option maxRecDepth 100000 in
/-- A read of the sample's first file, `hello`, in the other layout. -/
theorem reproduced_sample :
    ((Request.readFileAt sampleFile 1 [0, 0, 0]).program referenceEnv (sampleFs movedMap)).run
      movedVolume.device.answer = .ok (.count 3 [101, 108, 108]) := by
  have hsame : SameVolume (sampleFs sampleMap) (sampleFs movedMap) := ⟨rfl, rfl, rfl⟩
  have h := reply_reproduced referenceEnv_usize64 hsame sampleVolume.exact movedVolume.bytewise
    moved_reproduces (.readFileAt sampleFile 1 [0, 0, 0])
  refine h.ok ?_
  decide +kernel

end Btrfs

/-! ### Readers that fail -/

/-- A request that the reader has refused. -/
abbrev Refused (q : ReadReq) (a : Ans q) : Prop := a = none

/-- The error that names a request. -/
abbrev Names (q : ReadReq) (x : Stop) : Prop := ∃ context, x = .err (.io context q.offset)

/-- A reader that may fail at any request, and otherwise answers from the image. -/
def Flaky {σ : Type} (dev : Device) (R : (q : ReadReq) → σ → Ans q × σ) : Prop :=
  ∀ q s, (R q s).1 = none ∨ (R q s).1 = dev.answer q

theorem fetch_givesUp {env : Env} {map : ChunkMap} (context : String) (n len cursor : ℕ) :
    (fetch env map (.io context) n len cursor).GivesUp Refused Names := by
  induction n generalizing len cursor with
  | zero => trivial
  | succ n ih =>
    rw [fetch]
    by_cases hpos : 0 < len
    · rw [if_pos hpos]
      refine GivesUp.bind (givesUp_lift _) fun r => ?_
      have hread : (readAt r.physical (min len r.contiguousBytes)
          (.io context r.physical)).GivesUp Refused Names := by
        intro a
        cases a with
        | none => exact ⟨fun _ => ⟨_, rfl, context, rfl⟩, trivial⟩
        | some bs => exact ⟨fun hbad => absurd hbad (Option.some_ne_none bs), trivial⟩
      exact GivesUp.bind hread fun bs => GivesUp.bind (ih _ _) fun _ => givesUp_pure _
    · rw [if_neg hpos]
      exact givesUp_pure _

/-- The program gives up at the first request refused. -/
abbrev Quitting : ReadRel := fun p _ => p.GivesUp Refused Names

namespace Btrfs

/-- What is left of a call: its requests with their answers, and its reply. -/
structure Record where
  requests : List ((q : ReadReq) × Ans q)
  reply : Outcome Reply

/-- The calls of a session one after the other, whatever comes of them. -/
def records (env : Env) {σ : Type} (R : (q : ReadReq) → σ → Ans q × σ) (fs : Btrfs) :
    List Request → σ → List Record
  | [], _ => []
  | r :: rs, s =>
    ⟨dialogue R (r.program env fs) s, (exec R (r.program env fs) s).result⟩ ::
      records env R fs rs (exec R (r.program env fs) s).state

/-- No request of the call was refused and it was answered as by the device, or it stopped
at the first request refused. -/
def FailsStop (env : Env) (fs : Btrfs) (dev : Device) (r : Request) (record : Record) : Prop :=
  ((∀ d ∈ record.requests, d.2 = dev.answer d.1 ∧ d.2 ≠ none) ∧
      record.reply = (r.program env fs).run dev.answer) ∨
    ∃ served q context, record.requests = served ++ [⟨q, none⟩] ∧
      (∀ d ∈ served, d.2 = dev.answer d.1 ∧ d.2 ≠ none) ∧
      record.reply = err (.io context q.offset)

section Session

variable {env : Env} (h64 : env.usizeBits = 64) (fs : Btrfs) {σ : Type}
  {R : (q : ReadReq) → σ → Ans q × σ}

include h64

theorem program_givesUp (r : Request) : (r.program env fs).GivesUp Refused Names :=
  (program_alike (B := Quitting) (SameVolume.refl fs) h64
    (fun context n len cursor _ => fetch_givesUp context n len cursor) r).givesUp
      fun _ _ hq => hq

theorem call_failStop {dev : Device} (hR : Flaky dev R) (r : Request) (s : σ) :
    FailsStop env fs dev r
      ⟨dialogue R (r.program env fs) s, (exec R (r.program env fs) s).result⟩ := by
  -- an answer that is not a refusal is the device's
  have hgood : ∀ d ∈ dialogue R (r.program env fs) s, ¬ Refused d.1 d.2 →
      d.2 = dev.answer d.1 := by
    intro d hd hnot
    obtain ⟨s', hs'⟩ := mem_dialogue hd
    rcases hR d.1 s' with hnone | hanswer
    · exact absurd (hs'.trans hnone) hnot
    · exact hs'.trans hanswer
  rcases (program_givesUp h64 fs r).exec R s with hall | hstop
  · exact .inl ⟨fun d hd => ⟨hgood d hd (hall d hd), hall d hd⟩,
      exec_of_dialogue fun d hd => hgood d hd (hall d hd)⟩
  · obtain ⟨served, q, a, x, hd, hall, hbad, hx, context, rfl⟩ := hstop
    refine .inr ⟨served, q, context, ?_, fun d hd' => ?_, hx⟩
    · show dialogue R (r.program env fs) s = _
      rw [hd, hbad]
    · have hmem : d ∈ dialogue R (r.program env fs) s := by
        rw [hd]
        exact List.mem_append_left _ hd'
      exact ⟨hgood d hmem (hall d hd'), hall d hd'⟩

/-- A reader that fails now and then makes calls stop, and never makes one reply wrongly:
in every session each call either has all its requests answered and replies as it would
behind a reader without failures, or stops at its first failed request with the error that
names it. -/
theorem session_failStop {dev : Device} (hR : Flaky dev R) (requests : List Request) (s : σ) :
    List.Forall₂ (FailsStop env fs dev) requests (records env R fs requests s) := by
  induction requests generalizing s with
  | nil => exact .nil
  | cons r rs ih => exact .cons (call_failStop h64 fs hR r s) (ih _)

end Session

/-- The sample's reader, which fails at its third request and every later one. -/
def failingReader (q : ReadReq) (left : ℕ) : Ans q × ℕ :=
  (if left = 0 then none else sampleVolume.device.answer q, left - 1)

set_option maxRecDepth 100000 in
/-- Two requests are enough for the metadata of one file and no more. -/
theorem failStop_sample :
    List.Forall₂ (FailsStop referenceEnv (sampleFs sampleMap) sampleVolume.device)
      [.metadata sampleFile, .readFileAt sampleFile 0 [0]]
      (records referenceEnv failingReader (sampleFs sampleMap)
        [.metadata sampleFile, .readFileAt sampleFile 0 [0]] 2) ∧
    (records referenceEnv failingReader (sampleFs sampleMap)
      [.metadata sampleFile, .readFileAt sampleFile 0 [0]] 2).map Record.reply =
        [.ok (.metadata ⟨5, 0, 0, 0o100644, 0, 0, 0⟩), err (.io "tree_block_read" 0x1000)] := by
  have hflaky : Flaky sampleVolume.device failingReader := by
    intro q left
    unfold failingReader
    split_ifs
    · exact .inl rfl
    · exact .inr rfl
  refine ⟨session_failStop referenceEnv_usize64 (sampleFs sampleMap) hflaky _ 2, ?_⟩
  decide +kernel

/-! ### What is read -/

end Btrfs

/-- A request for bytes of a stripe of a linear chunk, on the local device. -/
def WithinStripe (map : ChunkMap) (q : ReadReq) : Prop :=
  ∃ m ∈ map.mappings, m.Linear ∧ ∃ s ∈ m.stripes, (∀ devid ∈ map.localDevid, s.devid = devid) ∧
    s.offset ≤ q.offset ∧ q.offset + q.len ≤ s.offset + m.length

theorem InStripe.within {map : ChunkMap} {start len : ℕ} {q : ReadReq}
    (h : InStripe map start len q) : WithinStripe map q := by
  obtain ⟨i, -, m, hm, -, hlin, s, hs, hdev, hoffset, hend⟩ := h
  exact ⟨m, hm, hlin, s, hs, hdev, by omega, by omega⟩

/-- The program reads inside the stripes of the map. -/
abbrev Inside (map : ChunkMap) : ReadRel := fun p _ => p.Asks (WithinStripe map)

theorem mapped_inside (env : Env) (map : ChunkMap) : Mapped env (Inside map) map map :=
  fun _ n len cursor _ => (fetch_asks _ n len cursor).mono fun _ => InStripe.within

theorem asks_of_inside {α : Type} {map : ChunkMap} {p p' : ReadM α}
    (h : Alike (Inside map) p p') : p.Asks (WithinStripe map) := h.asks fun _ _ hq => hq

namespace Btrfs

theorem program_asks {env : Env} (h64 : env.usizeBits = 64) (fs : Btrfs) (r : Request) :
    (r.program env fs).Asks (WithinStripe fs.chunkMap) :=
  asks_of_inside (program_alike (SameVolume.refl fs) h64 (mapped_inside env fs.chunkMap) r)

/-- A session reads stripes of the local device and nothing else, whatever the reader
answers. -/
theorem records_confined {env : Env} (h64 : env.usizeBits = 64) (fs : Btrfs) {σ : Type}
    (R : (q : ReadReq) → σ → Ans q × σ) (requests : List Request) (s : σ) :
    ∀ record ∈ records env R fs requests s, ∀ d ∈ record.requests,
      WithinStripe fs.chunkMap d.1 := by
  induction requests generalizing s with
  | nil => exact fun _ h => absurd h List.not_mem_nil
  | cons r rs ih =>
    intro record hrecord
    rcases List.mem_cons.mp hrecord with rfl | hrecord
    · exact Asks.dialogue (program_asks h64 fs r)
    · exact ih _ record hrecord

end Btrfs
