import BlockSync.Proofs.Machine.Checksum
import BlockSync.Proofs.Machine.Engine
import BlockSync.Proofs.Machine.Issuer

/-!
# Scanning on the machine

On the machine a file is scanned with two positions in the buffer: where the run of bytes to insert
begins and where the window begins. What has arrived is looked at window by window, and what is left
is moved to the front of the buffer at the end of the scan.

* `Scanner.scan`, `Scanner.finish`, `Scanner.advance`: a scan, the end of the file and a step;
* `Scanner.Tracks`: a scanner has looked at all but the last bytes that have arrived, and stands where
  the encoder stands before these arrive;
* **`Scanner.releaseRun_eq`**, **`Scanner.takeBlock_eq`**, **`Scanner.takeByte_spec`**: moving on traps
  at nothing;
* **`Scanner.look_spec`**: nor does a look at a window, and it moves on as the encoder does when that
  window is filled.
-/

namespace BlockSync

open Machine

/-! ## Windows that are filled -/

namespace DeltaEncoder

variable {s : Signature} {e : DeltaEncoder} {n : Nat} {run window : Bytes}

theorem foldl_receive (e : DeltaEncoder) (bs : Bytes) :
    bs.foldl receive e = { e with buffer := e.buffer ++ bs, hasher := e.hasher.update bs } := by
  induction bs generalizing e with
  | nil => simp
  | cons b bs ih =>
    rw [List.foldl_cons, ih]
    simp [receive, Blake3.Hasher.update]

theorem shows_foldl_receive (h : e.Shows run window) (bs : Bytes) :
    (bs.foldl receive e).Shows run (window ++ bs) := by
  rw [foldl_receive]
  exact ⟨by simp [h.buffer], h.length⟩

theorem books_foldl_receive (h : Books e n) (bs : Bytes) :
    Books (bs.foldl receive e) (n + bs.length) := by
  induction bs generalizing e n with
  | nil => exact h
  | cons b bs ih =>
    rw [List.length_cons, Nat.add_comm bs.length, ← Nat.add_assoc]
    exact ih (books_receive h b)

theorem stands_receive (h : Stands s e run window) {b : UInt8}
    (hlt : window.length + 1 < s.blockLength) : Stands s (e.receive b) run (window ++ [b]) :=
  ⟨shows_receive h.toShows b, h.index, h.finished, by simpa using hlt, fun sum old hl => by
    have := (h.last sum old hl).2
    omega⟩

/-- Bytes that do not fill the window wait in it. -/
theorem foldl_absorb_of_short (h : Stands s e run window) {bs : Bytes}
    (hlt : window.length + bs.length < s.blockLength) : bs.foldl absorb e = bs.foldl receive e := by
  induction bs generalizing e window with
  | nil => rfl
  | cons b bs ih =>
    rw [List.length_cons] at hlt
    have hb : window.length + 1 < s.blockLength := by omega
    rw [List.foldl_cons, List.foldl_cons, (moves_receive h hb).1]
    refine ih (stands_receive h hb) ?_
    rw [List.length_append, List.length_singleton]
    omega

/-- When bytes fill the window, the encoder looks for a block that agrees with all of it. -/
theorem foldl_absorb_of_full (h : Stands s e run window) {bs : Bytes} (hne : bs ≠ [])
    (hf : window.length + bs.length = s.blockLength) :
    bs.foldl absorb e = match s.find? (window ++ bs) with
      | some block => (bs.foldl receive e).takeBlock block
      | none => (bs.foldl receive e).takeByte (RollingSum.ofBytes (window ++ bs)) := by
  induction bs generalizing e window with
  | nil => exact absurd rfl hne
  | cons b bs ih =>
    rw [List.length_cons] at hf
    rw [List.foldl_cons, List.foldl_cons]
    cases bs with
    | nil => exact absorb_of_full h hf
    | cons c bs =>
      rw [List.length_cons] at hf
      have hb : window.length + 1 < s.blockLength := by omega
      rw [(moves_receive h hb).1, ih (stands_receive h hb) (by simp) (by simp; omega)]
      simp only [List.append_assoc, List.singleton_append]

end DeltaEncoder

/-! ## Scanners -/

/-- The state of writing a delta on the machine. -/
structure Scanner where
  table : BlockTable
  buffer : Array UInt8
  /-- Where the run of bytes to insert begins. -/
  runStart : Nat
  /-- Where the run ends and the window begins. -/
  pos : Nat
  /-- The checksum of the window, if it is known. -/
  rolling : Option RollingSum
  issuer : Issuer
  hasher : Blake3.Hasher
  finished : Bool

namespace Scanner

def blockLength (m : Scanner) : Nat := m.table.signature.params.blockLength.toNat

/-- The run is inserted, behind the copy that was held back. -/
def releaseRun (m : Scanner) : Machine Scanner :=
  if m.pos = m.runStart then return m
  else do
    let issuer ← m.issuer.releaseCopy
    let issuer ← issuer.insert (← range m.buffer m.runStart m.pos)
    return { m with issuer := issuer, runStart := m.pos }

/-- The next `length` bytes are a block of the basis. -/
def takeBlock (m : Scanner) (b : BlockSum) (length : Nat) : Machine Scanner := do
  let count ← narrow 32 length
  let m ← m.releaseRun
  let offset ← mul 64 b.index.toNat m.blockLength
  let issuer ← m.issuer.copy ⟨UInt64.ofNat offset, UInt32.ofNat count⟩
  let pos ← add 64 m.pos length
  return { m with issuer := issuer, pos := pos, runStart := pos }

/-- The checksum of the window that has moved on over one byte, if there is a byte behind it. -/
def roll (m : Scanner) (sum : RollingSum) : Machine (Option RollingSum) := do
  let back ← add 64 m.pos m.blockLength
  if back < m.buffer.size then
    let old ← fetch m.buffer m.pos
    let new ← fetch m.buffer back
    let sum ← sum.slide old new
    return some sum
  else return none

/-- The first byte of the window joins the run. -/
def takeByte (m : Scanner) (sum : RollingSum) : Machine Scanner := do
  let rolling ← m.roll sum
  let pos ← add 64 m.pos 1
  let m : Scanner := { m with rolling := rolling, pos := pos }
  let length ← sub m.pos m.runStart
  if insertLimit ≤ length then m.releaseRun else return m

/-- The checksum of the window, which is added up if it is not known. -/
def checksum (m : Scanner) (window : Bytes) : Machine RollingSum :=
  match m.rolling with
  | some sum => return sum
  | none => RollingSum.compute window

/-- Look at the window in front of a position. -/
def look (m : Scanner) (back : Nat) : Machine Scanner := do
  let window ← range m.buffer m.pos back
  let sum ← m.checksum window
  match ← m.table.find? sum.packed window with
  | some b => do
    let m ← m.takeBlock b m.blockLength
    return { m with rolling := none }
  | none => m.takeByte sum

/-- What is left is moved to the front of the buffer. -/
def trim (m : Scanner) : Machine Scanner :=
  if 0 < m.runStart then do
    within m.runStart m.buffer.size
    let pos ← sub m.pos m.runStart
    return { m with
      buffer := m.buffer.extract m.runStart m.buffer.size
      pos := pos
      runStart := 0 }
  else return m

/-- Look at one window after the other. -/
def scan (m : Scanner) : Nat → Machine Scanner
  | 0 => .error .diverged
  | fuel + 1 => do
    let back ← add 64 m.pos m.blockLength
    if back ≤ m.buffer.size then
      let m ← m.look back
      m.scan fuel
    else m.trim

/-- What is left of the window may be a short block of the basis. -/
def takeTail (m : Scanner) : Machine Scanner := do
  let tail ← range m.buffer m.pos m.buffer.size
  if tail.isEmpty then return m
  else
    let sum ← RollingSum.compute tail
    match ← m.table.find? sum.packed tail with
    | some b => m.takeBlock b tail.length
    | none => return m

/-- The file ends. -/
def finish (m : Scanner) : Machine Scanner := do
  let m ← m.takeTail
  let m ← { m with pos := m.buffer.size }.releaseRun
  let issuer ← m.issuer.releaseCopy
  return { m with
    issuer := issuer.put (.close m.hasher.digest)
    buffer := #[]
    pos := 0
    runStart := 0
    finished := true }

/-- Take all input. -/
def receive (m : Scanner) (input : Buffer) : Machine (Scanner × Buffer) :=
  if input.isEmpty then return (m, input)
  else do
    let bs ← input.data
    let received : Scanner := { m with hasher := m.hasher.update bs, buffer := m.buffer ++ bs }
    let input ← input.consume bs.length
    let m ← received.scan (received.buffer.size + 1)
    return (m, input)

/-- Take all input, and the end of the file if nothing follows. -/
def takeInput (m : Scanner) (input : Buffer) : Machine (Scanner × Buffer) :=
  if m.finished then return (m, input)
  else do
    let (m, input) ← m.receive input
    if input.isExhausted then
      let m ← m.finish
      return (m, input)
    else return (m, input)

def status (m : Scanner) : Status := if m.finished && m.issuer.outbox.isEmpty then .done else .blocked

/-- Output that waits is passed on. -/
def pour (m : Scanner) (output : Buffer) : Machine (Scanner × Buffer) := do
  let (outbox, output) ← m.issuer.outbox.drainInto output
  return ({ m with issuer := { m.issuer with outbox := outbox } }, output)

/-- One step. -/
def advance (m : Scanner) (input output : Buffer) :
    Machine (Except TransferError Status × Scanner × Buffer × Buffer) := do
  let (m, output) ← m.pour output
  if !m.issuer.outbox.isEmpty then return (.ok .blocked, m, input, output)
  else
    let (m, input) ← m.takeInput input
    let (m, output) ← m.pour output
    return (.ok m.status, m, input, output)

instance : Program Scanner where
  step := advance

/-! ## Where a scanner stands -/

variable {s : Signature} {m : Scanner} {e : DeltaEncoder} {n : Nat} {run window rest : Bytes}

/-- A scanner has looked at all that has arrived but `rest`, which lies behind the window in its
buffer. -/
structure Tracks (s : Signature) (m : Scanner) (e : DeltaEncoder) (rest : Bytes) : Prop where
  table : m.table = .ofSignature s
  buffer : m.buffer.toList.drop m.runStart = e.buffer.toList ++ rest
  runStart : m.runStart ≤ m.buffer.size
  pos : m.pos = m.runStart + e.run
  issuer : m.issuer = e.issuer
  hasher : m.hasher = e.hasher.update rest
  finished : m.finished = false
  size : m.buffer.size < 2 ^ 32

/-- If the checksum of the window is known, the window is full. -/
def Rolls (m : Scanner) : Prop :=
  ∀ sum, m.rolling = some sum → m.pos + m.blockLength ≤ m.buffer.size ∧
    sum = RollingSum.ofBytes ((m.buffer.toList.drop m.pos).take m.blockLength)

namespace Tracks

variable (h : Tracks s m e rest)

include h

theorem blockLength_eq : m.blockLength = s.blockLength := by
  rw [Scanner.blockLength, h.table]
  rfl

theorem size_eq : m.runStart + e.buffer.size + rest.length = m.buffer.size := by
  have hl := congrArg List.length h.buffer
  have hs := h.runStart
  rw [List.length_drop, Array.length_toList, List.length_append, Array.length_toList] at hl
  omega

theorem drop_pos (hs : e.Shows run window) : m.buffer.toList.drop m.pos = window ++ rest := by
  rw [h.pos, ← List.drop_drop, h.buffer, hs.buffer, hs.length, List.append_assoc, List.drop_left]

theorem pos_eq (hs : e.Shows run window) :
    m.pos + window.length + rest.length = m.buffer.size := by
  have hsize := h.size_eq
  have hpos := h.pos
  have hl := hs.length
  have hb := hs.size_eq
  omega

/-- More is looked at. -/
theorem receive {bs more : Bytes} (hrest : rest = bs ++ more) :
    Tracks s m (bs.foldl DeltaEncoder.receive e) more := by
  subst hrest
  rw [DeltaEncoder.foldl_receive]
  refine ⟨h.table, ?_, h.runStart, h.pos, h.issuer, ?_, h.finished, h.size⟩
  · rw [h.buffer, Array.toList_appendList, List.append_assoc]
  · rw [h.hasher, Blake3.Hasher.update_append]

end Tracks

/-! ## Moving on -/

theorem issuer_releaseRun (hs : e.Shows run window) (hne : run ≠ []) :
    e.releaseRun.issuer = (e.releaseCopy.issue (.insert run)).issuer := by
  obtain ⟨hbuffer, hrun⟩ := DeltaEncoder.buffer_releaseCopy e
  have hz : e.run ≠ 0 := by
    rw [hs.length]
    exact fun hz => hne (List.length_eq_zero_iff.mp hz)
  have hslice : slice e.releaseCopy.buffer 0 e.releaseCopy.run = run := by
    rw [hbuffer, hrun, slice_eq, hs.buffer, hs.length, List.drop_zero, List.take_left]
  rw [DeltaEncoder.releaseRun, if_neg hz]
  dsimp only
  rw [hslice]
  rfl

/-- **The run is inserted**, from a range that is within the buffer. -/
theorem releaseRun_eq (h : Tracks s m e rest) (hs : e.Shows run window) (hb : e.Books n)
    (hn : n < 2 ^ 64) :
    m.releaseRun = .ok { m with issuer := e.releaseRun.issuer, runStart := m.pos } := by
  unfold releaseRun
  by_cases hz : e.run = 0
  · have hpos : m.pos = m.runStart := by rw [h.pos, hz, Nat.add_zero]
    rw [if_pos hpos, DeltaEncoder.releaseRun, if_pos hz, ← h.issuer]
    obtain ⟨table, buffer, runStart, pos, rolling, issuer, hasher, finished⟩ := m
    obtain rfl : pos = runStart := hpos
    rfl
  · have hpos : m.pos = m.runStart + run.length := by rw [h.pos, hs.length]
    have hr : run.length < 2 ^ 32 := by
      have := h.pos_eq hs
      have := h.size
      omega
    have hne : run ≠ [] := fun hnil => hz (by rw [hs.length, hnil]; rfl)
    have hbooks := DeltaEncoder.books_releaseCopy hb
    have hsize : run.length ≤ e.releaseCopy.buffer.size := by
      rw [(DeltaEncoder.buffer_releaseCopy e).1, ← hs.length]
      exact hs.run_le
    have hinserted : e.releaseCopy.totals.inserted + run.length < 2 ^ 64 := by
      have := hbooks.balance
      omega
    have hrange : range m.buffer m.runStart m.pos = .ok run := by
      have hdrop : m.buffer.toList.drop m.runStart = run ++ (window ++ rest) := by
        rw [h.buffer, hs.buffer, List.append_assoc]
      rw [hpos]
      exact range_of_drop h.runStart hdrop
    rw [if_neg (by rw [h.pos]; omega), h.issuer, DeltaEncoder.issuer_releaseCopy hb hn, bind_ok, hrange,
      bind_ok, DeltaEncoder.issuer_insert hbooks.inserts hne hr hinserted, bind_ok,
      issuer_releaseRun hs hne]
    rfl

theorem tracks_releaseRun (h : Tracks s m e rest) (hs : e.Shows run window) :
    Tracks s { m with issuer := e.releaseRun.issuer, runStart := m.pos } e.releaseRun rest := by
  obtain ⟨hs', -, is, hi, -⟩ := DeltaEncoder.issued_releaseRun hs
  have hsize := h.pos_eq hs
  refine ⟨h.table, ?_, ?_, ?_, rfl, ?_, h.finished, h.size⟩
  · rw [hs'.buffer]
    exact h.drop_pos hs
  · dsimp only
    omega
  · rw [hs'.length]
    rfl
  · rw [hi.hasher]
    exact h.hasher

/-- **A block is copied**, from where it begins. -/
theorem takeBlock_eq (hp : s.params.Valid) (h : Tracks s m e rest) (hs : e.Shows run window)
    (hx : e.index = .ofSignature s) (hb : e.Books n) (hn : n < 2 ^ 64) (b : BlockSum) :
    m.takeBlock b window.length = .ok { m with
      issuer := (e.takeBlock b).issuer
      pos := m.pos + window.length
      runStart := m.pos + window.length } := by
  have hle : s.blockLength ≤ 65536 := hp.blockLength_le
  have hsize := h.pos_eq hs
  have hmost := h.size
  have hlen : window.length < 2 ^ 32 := by omega
  have hx' : e.index.blockLength = s.params.blockLength := by
    rw [hx]
    rfl
  have hblock : e.index.blockLength.toNat ≤ 65536 := by
    rw [hx']
    exact hle
  obtain ⟨hoffset, hlt⟩ := DeltaEncoder.toNat_offset b hblock
  rw [hx'] at hlt
  have hmul : b.index.toNat * s.blockLength < 2 ^ 64 :=
    Nat.lt_trans (show b.index.toNat * s.blockLength < 2 ^ 48 from hlt) (by decide)
  have hcopy : (⟨UInt64.ofNat (b.index.toNat * s.blockLength), UInt32.ofNat window.length⟩ :
      PendingCopy) = ⟨b.index.toUInt64 * e.index.blockLength.toUInt64,
        UInt32.ofNat (e.buffer.size - e.run)⟩ := by
    rw [hs.size_sub, PendingCopy.mk.injEq]
    refine ⟨UInt64.toNat_inj.mp ?_, rfl⟩
    rw [hoffset, hx', UInt64.toNat_ofNat_of_lt' hmul]
    rfl
  have hbooks := DeltaEncoder.books_clear (DeltaEncoder.books_releaseRun hb hs.run_le)
    (DeltaEncoder.issued_releaseRun hs).1
  have hissue := DeltaEncoder.issuer_copy hbooks (Nat.lt_of_le_of_lt (Nat.sub_le _ _) hn)
    ⟨UInt64.ofNat (b.index.toNat * s.blockLength), UInt32.ofNat window.length⟩
  have hadd : m.pos + window.length < 2 ^ 64 := by omega
  have hlength : ({ m with issuer := e.releaseRun.issuer, runStart := m.pos } : Scanner).blockLength =
      s.blockLength := h.blockLength_eq
  rw [takeBlock, narrow_of_lt hlen, bind_ok, releaseRun_eq h hs hb hn, bind_ok, hlength,
    mul_of_lt hmul, bind_ok]
  have hissue' : e.releaseRun.issuer.copy ⟨UInt64.ofNat (b.index.toNat * s.blockLength),
      UInt32.ofNat window.length⟩ = .ok (e.takeBlock b).issuer := by
    refine hissue.trans ?_
    rw [hcopy]
    rfl
  dsimp only
  rw [hissue', bind_ok, add_of_lt hadd]
  rfl

theorem tracks_takeBlock (h : Tracks s m e rest) (hs : e.Shows run window)
    (hx : e.index = .ofSignature s) (b : BlockSum) :
    Tracks s { m with
      issuer := (e.takeBlock b).issuer
      pos := m.pos + window.length
      runStart := m.pos + window.length } (e.takeBlock b) rest := by
  obtain ⟨hs', -, is, hi, -⟩ := DeltaEncoder.issued_takeBlock hs hx b
  have hsize := h.pos_eq hs
  refine ⟨h.table, ?_, ?_, ?_, rfl, ?_, h.finished, h.size⟩
  · rw [hs'.buffer, ← List.drop_drop, h.drop_pos hs, List.drop_left]
    rfl
  · dsimp only
    omega
  · rw [hs'.length]
    rfl
  · rw [hi.hasher]
    exact h.hasher

/-- The checksum moves on with the window. -/
theorem roll_spec {b : UInt8} (h : Tracks s m e rest) (hs : e.Shows run (b :: window))
    (hf : window.length + 1 = s.blockLength) :
    ∃ rolling, m.roll (.ofBytes (b :: window)) = .ok rolling ∧ ∀ sum, rolling = some sum →
      m.pos + 1 + m.blockLength ≤ m.buffer.size ∧
        sum = RollingSum.ofBytes ((m.buffer.toList.drop (m.pos + 1)).take m.blockLength) := by
  have hsize := h.pos_eq hs
  have hmost := h.size
  have hdrop := h.drop_pos hs
  have hlen : m.blockLength = (b :: window).length := by rw [h.blockLength_eq, ← hf, List.length_cons]
  have hback : m.pos + m.blockLength < 2 ^ 64 := by omega
  have hnext : m.buffer.toList.drop (m.pos + 1) = window ++ rest := by
    rw [← List.drop_drop, hdrop]
    rfl
  rw [roll, add_of_lt hback, bind_ok]
  cases rest with
  | nil =>
    rw [if_neg (by rw [hlen, ← hsize]; simp)]
    exact ⟨none, rfl, nofun⟩
  | cons c rest =>
    have hbehind : m.buffer.toList.drop (m.pos + m.blockLength) = c :: rest := by
      rw [← List.drop_drop, hdrop, hlen, List.drop_left]
    have htake : (window ++ c :: rest).take (window.length + 1) = window ++ [c] := by
      rw [List.append_cons]
      exact List.take_left' (by simp)
    simp only [List.length_cons] at hsize hlen
    rw [if_pos (by omega), fetch_of_drop hdrop, bind_ok, fetch_of_drop hbehind, bind_ok,
      RollingSum.slide_eq (RollingSum.of_ofBytes _), bind_ok]
    refine ⟨_, rfl, fun sum hsum => ?_⟩
    obtain rfl := Option.some.inj hsum
    refine ⟨by omega, ?_⟩
    rw [hnext, hlen, htake]

/-- **The first byte of the window joins the run.** -/
theorem takeByte_spec {b : UInt8} (h : Tracks s m e rest) (hs : e.Shows run (b :: window))
    (hb : e.Books n) (hn : n < 2 ^ 64) (hf : window.length + 1 = s.blockLength) :
    ∃ m', m.takeByte (.ofBytes (b :: window)) = .ok m' ∧
      Tracks s m' (e.takeByte (.ofBytes (b :: window))) rest ∧ Rolls m' := by
  have hsize := h.pos_eq hs
  have hmost := h.size
  have hpos := h.pos
  rw [List.length_cons] at hsize
  obtain ⟨rolling, hroll, hrolls⟩ := roll_spec h hs hf
  let moved : Scanner := { m with rolling := rolling, pos := m.pos + 1 }
  let e' : DeltaEncoder := { e with
    last := some (.ofBytes (b :: window), e.buffer.getD e.run 0), run := e.run + 1 }
  have hs' : e'.Shows (run ++ [b]) window :=
    ⟨by simp [e', hs.buffer], by simp [e', hs.length]⟩
  have hb' : e'.Books n := ⟨hb.balance, hb.copies, hb.inserts, hb.held⟩
  have htracks : Tracks s moved e' rest :=
    ⟨h.table, h.buffer, h.runStart, by simp only [moved, e', hpos]; omega, h.issuer, h.hasher,
      h.finished, h.size⟩
  have hadd : m.pos + 1 < 2 ^ 64 := by omega
  have hsub : m.pos + 1 - m.runStart = e.run + 1 := by omega
  rw [takeByte, hroll, bind_ok, add_of_lt hadd, bind_ok]
  dsimp only
  rw [sub_of_le (by omega), bind_ok, hsub, DeltaEncoder.takeByte, DeltaEncoder.extendRun]
  by_cases hl : insertLimit ≤ e.run + 1
  · rw [if_pos hl]
    simp only [if_pos hl]
    exact ⟨_, releaseRun_eq htracks hs' hb' hn, tracks_releaseRun htracks hs', hrolls⟩
  · rw [if_neg hl]
    simp only [if_neg hl]
    exact ⟨moved, rfl, htracks, hrolls⟩

/-- **A look at a window traps at nothing**, and moves on as the encoder does when the bytes arrive
that fill the window. -/
theorem look_spec (hp : s.params.Valid) {bs : Bytes} (h : Tracks s m e (bs ++ rest))
    (hst : DeltaEncoder.Stands s e run window) (hne : bs ≠ [])
    (hf : window.length + bs.length = s.blockLength) (hroll : Rolls m) (hb : e.Books n)
    (hn : n + bs.length < 2 ^ 64) :
    ∃ m', m.look (m.pos + m.blockLength) = .ok m' ∧ Tracks s m' (bs.foldl DeltaEncoder.absorb e) rest ∧
      Rolls m' := by
  have hle : s.blockLength ≤ 65536 := hp.blockLength_le
  have htracks := h.receive rfl
  have hs := DeltaEncoder.shows_foldl_receive hst.toShows bs
  have hb := DeltaEncoder.books_foldl_receive hb bs
  have hx : (bs.foldl DeltaEncoder.receive e).index = .ofSignature s := by
    rw [DeltaEncoder.foldl_receive]
    exact hst.index
  have hlen : (window ++ bs).length = s.blockLength := by rw [List.length_append, hf]
  have hdrop := htracks.drop_pos hs
  have hsize := htracks.pos_eq hs
  have hrange : range m.buffer m.pos (m.pos + m.blockLength) = .ok (window ++ bs) := by
    rw [h.blockLength_eq, ← hlen]
    exact range_of_drop (by omega) hdrop
  have hsum : m.checksum (window ++ bs) = .ok (.ofBytes (window ++ bs)) := by
    unfold checksum
    cases hc : m.rolling with
    | none => exact RollingSum.compute_eq (by omega)
    | some sum =>
      obtain ⟨-, rfl⟩ := hroll sum hc
      rw [hdrop, h.blockLength_eq, List.take_left' hlen]
      rfl
  have hfind := BlockTable.find?_eq s (RollingSum.ofBytes (window ++ bs)).packed (window ++ bs)
  rw [SignatureIndex.find?_ofSignature] at hfind
  change _ = Except.ok (s.find? (window ++ bs)) at hfind
  rw [look, hrange, bind_ok, hsum, bind_ok, h.table, hfind, bind_ok,
    DeltaEncoder.foldl_absorb_of_full hst hne hf]
  cases s.find? (window ++ bs) with
  | some block =>
    have htake := takeBlock_eq hp htracks hs hx hb hn block
    rw [hlen, ← h.blockLength_eq] at htake
    have htracks' := tracks_takeBlock htracks hs hx block
    rw [hlen, ← h.blockLength_eq] at htracks'
    simp only [htake, bind_ok]
    exact ⟨_, rfl, ⟨htracks'.table, htracks'.buffer, htracks'.runStart, htracks'.pos, htracks'.issuer,
      htracks'.hasher, htracks'.finished, htracks'.size⟩, nofun⟩
  | none =>
    -- the window is not empty, and its first byte is taken
    obtain ⟨x, w, hw⟩ : ∃ x w, window ++ bs = x :: w := by
      cases window with
      | nil => exact List.exists_cons_of_ne_nil hne
      | cons x w => exact ⟨x, w ++ bs, rfl⟩
    rw [hw] at hs hlen ⊢
    exact takeByte_spec htracks hs hb hn hlen

end Scanner

end BlockSync
