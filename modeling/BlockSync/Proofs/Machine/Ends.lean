import BlockSync.Proofs.Machine.Engine
import BlockSync.Proofs.Stream.Frames

/-!
# Sources and sinks on the machine

* `RawSource.draw`, `FramedSource.draw`: pulls, read by read and frame by frame;
* **`RawSource.draw_eq`**, **`FramedSource.draw_eq`**: nothing traps, whatever a reader delivers;
* `RawSource`, `FramedSource` as inlets; `RawSink`, `FramedSink`, `NoSink` as outlets.
-/

namespace BlockSync

open Machine

/-! ## Raw sources -/

namespace RawSource

/-- Read into what is left of the room, behind the bytes `got`. -/
def readInto (room : Nat) : Nat → Bytes → List Piece → Machine (Bytes × Stop × List Piece)
  | 0, _, _ => .error .diverged
  | fuel + 1, got, pieces =>
    if got.length < room then do
      let left ← sub room got.length
      match Reader.read left pieces with
      | (.error f, rest) =>
        if f.kind = .interrupted then readInto room fuel got rest else return (got, .fault f, rest)
      | (.ok [], rest) => return (got, .ended, rest)
      | (.ok bs, rest) => do
        let _ ← add 64 got.length bs.length
        readInto room fuel (got ++ bs) rest
    else return (got, .full, pieces)

/-- A pull. -/
def draw (s : RawSource) (room : Nat) : Machine (Except TransferError Delivery × RawSource) := do
  match ← readInto room (s.reader.pieces.length + 2) [] s.reader.pieces with
  | (bs, .full, rest) => return (.ok (.of bs false), ⟨⟨rest⟩⟩)
  | (bs, .ended, rest) => return (.ok (.of bs true), ⟨⟨rest⟩⟩)
  | (_, .fault f, rest) => return (.error (.io f), ⟨⟨rest⟩⟩)

/-- A read takes a piece away, or it fills the request. -/
theorem read_cases {count : Nat} {pieces rest : List Piece} {result : Except Fault Bytes}
    (h : Reader.read count pieces = (result, rest)) :
    (rest.length < pieces.length ∨ result = .ok [] ∨ ∃ bs, result = .ok bs ∧ bs.length = count) ∧
      ∀ bs, result = .ok bs → bs.length ≤ count := by
  match pieces with
  | [] =>
    cases h
    exact ⟨.inr (.inl rfl), fun bs hb => by cases hb; exact Nat.zero_le _⟩
  | .fault f :: pieces =>
    cases h
    exact ⟨.inl (Nat.lt_succ_self _), fun bs hb => nomatch hb⟩
  | .data bs :: pieces =>
    have hlen : (bs.take count).length ≤ count := List.length_take_le _ _
    simp only [Reader.read, Prod.mk.injEq] at h
    obtain ⟨rfl, rfl⟩ := h
    refine ⟨?_, fun cs hc => by cases hc; exact hlen⟩
    by_cases hlt : count < bs.length
    · exact .inr (.inr ⟨_, rfl, by rw [List.length_take]; omega⟩)
    · rw [if_neg hlt]
      exact .inl (Nat.lt_succ_self _)

theorem gatherFrom_zero (pieces : List Piece) : Reader.gatherFrom 0 pieces = ([], .full, pieces) := by
  cases pieces <;> rfl

theorem readInto_full {room fuel : Nat} {got : Bytes} {pieces : List Piece} (h : got.length = room) :
    readInto room (fuel + 1) got pieces = .ok (got, .full, pieces) := by
  rw [readInto, if_neg (by omega)]
  rfl

/-- Reading into a room gathers what there is room for. -/
theorem readInto_eq {room fuel : Nat} {got : Bytes} {pieces : List Piece} (hroom : room < 2 ^ 64)
    (hgot : got.length ≤ room) (hfuel : pieces.length + 1 < fuel) :
    readInto room fuel got pieces = .ok (got ++ (Reader.gatherFrom (room - got.length) pieces).1,
      (Reader.gatherFrom (room - got.length) pieces).2) := by
  -- on the fuel: a read that leaves all pieces fills the room
  induction fuel generalizing got pieces with
  | zero => omega
  | succ fuel ih =>
    by_cases hlt : got.length < room
    · obtain ⟨count, hcount⟩ : ∃ count, room - got.length = count + 1 := ⟨room - got.length - 1, by omega⟩
      rw [hcount, Reader.gatherFrom_succ, readInto, if_pos hlt, sub_of_le hgot, bind_ok, hcount]
      rcases hr : Reader.read (count + 1) pieces with ⟨f | bs, rest⟩
      · obtain ⟨hrest | ⟨h, -⟩ | ⟨_, h, -⟩, -⟩ := read_cases hr <;> try cases h
        dsimp only
        by_cases hi : f.kind = .interrupted
        · rw [if_pos hi, if_pos hi, ih hgot (by omega), hcount]
        · rw [if_neg hi, if_neg hi, List.append_nil]
          rfl
      · obtain ⟨hrest, hlen⟩ := read_cases hr
        cases bs with
        | nil =>
          dsimp only
          rw [List.append_nil]
          rfl
        | cons b bs =>
          have hle := hlen _ rfl
          have hleft : room - (got ++ b :: bs).length = count + 1 - (b :: bs).length := by
            rw [List.length_append]
            omega
          have hadd : got.length + (b :: bs).length < 2 ^ 64 := by omega
          dsimp only
          rw [add_of_lt hadd, bind_ok, ← List.append_assoc, ← hleft]
          rcases hrest with hrest | h | ⟨_, h, hfull⟩
          · exact ih (by rw [List.length_append]; omega) (by omega)
          · cases h
          · cases h
            have hfull' : (got ++ b :: bs).length = room := by
              rw [List.length_append]
              omega
            obtain ⟨fuel, rfl⟩ : ∃ fuel', fuel = fuel' + 1 := ⟨fuel - 1, by omega⟩
            rw [readInto_full hfull', hfull', Nat.sub_self, gatherFrom_zero, List.append_nil]
    · have hfull : got.length = room := by omega
      rw [readInto_full hfull, hfull, Nat.sub_self, gatherFrom_zero, List.append_nil]

/-- **A pull, read by read.** -/
theorem draw_eq (s : RawSource) {room : Nat} (h : room < 2 ^ 64) : s.draw room = .ok (s.pull room) := by
  unfold draw pull Reader.gather
  rw [readInto_eq h (Nat.zero_le _) (Nat.lt_succ_self _), bind_ok]
  simp only [List.nil_append, List.length_nil, Nat.sub_zero]
  rcases Reader.gatherFrom room s.reader.pieces with ⟨bs, _ | _ | f, rest⟩ <;> rfl

end RawSource

instance : Inlet RawSource where
  draw := RawSource.draw
  ofReader r := ⟨r⟩
  flow := RawSource.flow
  Sound _ := True
  faithful := RawSource.faithful
  draw_eq {s _} _ h := s.draw_eq h
  sound_pull _ _ := trivial
  sound_ofReader _ := trivial
  available_ofReader _ := rfl

/-! ## Framed sources -/

namespace FramedSource

/-- How much of the staged payload is still to be delivered. -/
def remaining (s : FramedSource) : Machine Nat := sub s.staged.size s.delivered

/-- Deliver from the staged payload. -/
def handOut (s : FramedSource) (room : Nat) : Machine (Delivery × FramedSource) := do
  let count := min (← s.remaining) room
  within count room
  let delivered ← add 64 s.delivered count
  let bs ← range s.staged s.delivered delivered
  let s : FramedSource := { s with delivered := delivered }
  let left ← s.remaining
  return (⟨bs, count, s.peerDone && left == 0⟩, s)

/-- Deliver the payload behind a header. -/
def acceptBody (s : FramedSource) (header : Frame.Header) (room : Nat) :
    Machine (Except TransferError Delivery × FramedSource) :=
  let length := header.length.toNat
  if length ≤ room then do
    within length room
    match Frame.readBody s.reader length with
    | (.error e, _, r) => return (.error e, { s with reader := r })
    | (.ok (), bs, r) => return (.ok ⟨bs, length, header.last⟩, { s with reader := r })
  else
    match s.stage length with
    | (.error e, s) => return (.error e, s)
    | (.ok (), s) => do
      let (d, s) ← s.handOut room
      return (.ok d, s)

/-- Headers are read until a frame carries something or was the last. -/
def await (room : Nat) : Nat → FramedSource → Machine (Except TransferError Delivery × FramedSource)
  | 0, _ => .error .diverged
  | fuel + 1, s =>
    if s.peerDone then return (.ok (.of [] true), s)
    else
      match Frame.readHeader s.reader with
      | (.error e, r) => return (.error e, { s with reader := r })
      | (.ok header, r) => do
        let frames ← add 64 s.frames 1
        let s : FramedSource := { s with reader := r, frames := frames, peerDone := header.last }
        if header.isEmpty then await room fuel s else s.acceptBody header room

/-- A pull. -/
def draw (s : FramedSource) (room : Nat) : Machine (Except TransferError Delivery × FramedSource) := do
  if 0 < (← s.remaining) then
    let (d, s) ← s.handOut room
    return (.ok d, s)
  else await room (s.reader.available + 2) s

/-- The numbers that a framed source keeps are in order: it has delivered of the staged payload, which
came in one frame, and each frame has taken its header from the wire. -/
structure Sound (s : FramedSource) : Prop where
  delivered : s.delivered ≤ s.staged.size
  staged : s.staged.size < 2 ^ 16
  frames : s.frames + s.reader.available < 2 ^ 64

variable {s : FramedSource} {room : Nat}

theorem remaining_eq (h : s.Sound) : s.remaining = .ok s.undelivered := sub_of_le h.delivered

theorem handOut_eq (h : s.Sound) : s.handOut room = .ok (s.deliver room) := by
  have hd := h.delivered
  have hs := h.staged
  have hcount : min s.undelivered room ≤ s.staged.size - s.delivered := Nat.min_le_left _ _
  have hroom : min s.undelivered room ≤ room := Nat.min_le_right _ _
  have hto : s.delivered + min s.undelivered room ≤ s.staged.size := by omega
  have hadd : s.delivered + min s.undelivered room < 2 ^ 64 := by omega
  have hlen : (s.staged.extract s.delivered (s.delivered + min s.undelivered room)).toList.length =
      min s.undelivered room := by
    simp
    omega
  have hrem : sub s.staged.size s.delivered = .ok s.undelivered := sub_of_le hd
  simp only [handOut, remaining, hrem, bind_ok, within_of_le hroom, add_of_lt hadd,
    range_of_le (Nat.le_add_right _ _) hto, sub_of_le hto, deliver, Delivery.of, hlen,
    Nat.add_sub_cancel_left]
  rfl

/-- A payload is delivered only as far as there is one. -/
theorem sound_deliver (h : s.Sound) : (s.deliver room).2.Sound := by
  have hd := h.delivered
  have hcount : min s.undelivered room ≤ s.staged.size - s.delivered := Nat.min_le_left _ _
  refine ⟨?_, h.staged, h.frames⟩
  change s.delivered + min s.undelivered room ≤ s.staged.size
  omega

theorem readBody_le {r r' : Reader} {length : Nat} {result : Except TransferError Unit} {bs : Bytes}
    (h : Frame.readBody r length = (result, bs, r')) :
    bs.length ≤ length ∧ r'.available ≤ r.available := by
  have hg := r.gather_spec length
  rcases hr : r.gather length with ⟨cs, stop, r₁⟩
  have hav := Reader.available_gather hr
  rw [hr] at hg
  simp only [Frame.readBody, hr] at h
  cases stop with
  | full =>
    cases h
    exact ⟨Nat.le_of_eq hg.1, by omega⟩
  | ended =>
    cases h
    exact ⟨Nat.le_of_lt hg.1, by omega⟩
  | fault f =>
    cases h
    exact ⟨Nat.le_of_lt hg.1, by omega⟩

theorem sound_stage (h : s.Sound) {length : Nat} (hl : length < 2 ^ 16) : (s.stage length).2.Sound := by
  have hf := h.frames
  rcases hb : Frame.readBody s.reader length with ⟨result, bs, r⟩
  obtain ⟨hbs, hr⟩ := readBody_le hb
  simp only [stage, hb]
  refine ⟨Nat.zero_le _, ?_, by dsimp only; omega⟩
  simp only [List.size_toArray, List.length_append, List.length_replicate, length_slice]
  omega

theorem acceptBody_eq (h : s.Sound) (header : Frame.Header) :
    s.acceptBody header room = .ok (s.takeBody header room) := by
  have hl : header.length.toNat < 2 ^ 16 := header.length.toNat_lt
  unfold acceptBody takeBody
  dsimp only
  by_cases hroom : header.length.toNat ≤ room
  · rw [if_pos hroom, if_pos hroom, within_of_le hroom, bind_ok]
    have hspec := Frame.readBody_spec header s.reader
    rcases hb : Frame.readBody s.reader header.length.toNat with ⟨e | ⟨⟩, bs, r⟩ <;> rw [hb] at hspec
    · rfl
    · simp only [Delivery.of, hspec.1]
      rfl
  · rw [if_neg hroom, if_neg hroom]
    have hs := sound_stage h hl
    rcases hst : s.stage header.length.toNat with ⟨e | ⟨⟩, s'⟩ <;> rw [hst] at hs
    · rfl
    · dsimp only at hs ⊢
      rw [handOut_eq hs, bind_ok]
      rfl

theorem sound_takeBody (h : s.Sound) (header : Frame.Header) : (s.takeBody header room).2.Sound := by
  have hl : header.length.toNat < 2 ^ 16 := header.length.toNat_lt
  have hf := h.frames
  unfold takeBody
  dsimp only
  by_cases hroom : header.length.toNat ≤ room
  · rw [if_pos hroom]
    rcases hb : Frame.readBody s.reader header.length.toNat with ⟨result, bs, r⟩
    obtain ⟨-, hr⟩ := readBody_le hb
    exact ⟨h.delivered, h.staged, by dsimp only; omega⟩
  · rw [if_neg hroom]
    have hs := sound_stage h hl
    rcases hst : s.stage header.length.toNat with ⟨e | ⟨⟩, s'⟩ <;> rw [hst] at hs
    · exact hs
    · exact sound_deliver hs

/-- Frame by frame, until one carries something or was the last. -/
theorem await_eq (h : s.Sound) (hp : s.peerDone = false) {fuel : Nat}
    (hfuel : s.reader.available + 1 < fuel) : await room fuel s = .ok (s.takeNext room) := by
  -- on the frames, as many as the fuel allows: each takes its header from the wire
  induction fuel generalizing s with
  | zero => omega
  | succ fuel ih =>
    rw [await, if_neg (by simp [hp])]
    rcases hr : Frame.readHeader s.reader with ⟨e | header, r⟩
    · rw [takeNext, nextHeader_of_error hr]
      rfl
    · have hlt := Frame.available_lt_of_readHeader hr
      have hf := h.frames
      let s' : FramedSource := { s with reader := r, frames := s.frames + 1, peerDone := header.last }
      have hs' : s'.Sound := ⟨h.delivered, h.staged, by simp only [s']; omega⟩
      have hadd : s.frames + 1 < 2 ^ 64 := by omega
      dsimp only
      rw [add_of_lt hadd, bind_ok, takeNext, nextHeader_of_ok hr]
      change (if header.isEmpty = true then await room fuel s' else s'.acceptBody header room) = _
      by_cases he : header.isEmpty = true
      · rw [if_pos he]
        by_cases hlast : header.last = true
        · -- the last frame carries nothing
          obtain ⟨fuel, rfl⟩ : ∃ fuel', fuel = fuel' + 1 := ⟨fuel - 1, by omega⟩
          have hz : header.length.toNat = 0 := by
            have : header.length = 0 := by simpa [Frame.Header.isEmpty] using he
            rw [this]
            rfl
          have hbody : Frame.readBody r 0 = (.ok (), [], r) := by
            simp only [Frame.readBody, Reader.gather, RawSource.gatherFrom_zero]
          rw [await, if_pos (show s'.peerDone = true from hlast), if_neg (by simp [hlast])]
          simp only [takeBody, hz, Nat.zero_le, if_true, hbody, hlast, s']
          rfl
        · have hp' : s'.peerDone = false := Bool.eq_false_iff.mpr hlast
          rw [ih hs' hp' (by simp only [s']; omega), if_pos (by simp [he, hlast])]
          rfl
      · rw [if_neg he, if_neg (by simp [he]), acceptBody_eq hs']

/-- **A pull, frame by frame.** -/
theorem draw_eq (h : s.Sound) (room : Nat) : s.draw room = .ok (s.pull room) := by
  rw [draw, remaining_eq h, bind_ok, pull_eq]
  by_cases hu : 0 < s.undelivered
  · rw [if_pos hu, if_pos hu, handOut_eq h, bind_ok]
    rfl
  · rw [if_neg hu, if_neg hu]
    cases hp : s.peerDone with
    | true =>
      rw [if_pos rfl, await, if_pos hp]
      rfl
    | false => rw [if_neg (by decide), await_eq h hp (Nat.lt_succ_self _)]

theorem available_le_of_readHeader {r r' : Reader} {e : TransferError}
    (h : Frame.readHeader r = (.error e, r')) : r'.available ≤ r.available := by
  rcases hr : r.gather Frame.headerLength with ⟨bs, stop, r₁⟩
  have hav := Reader.available_gather hr
  unfold Frame.readHeader at h
  rw [hr] at h
  split at h
  · cases h
  · next heq =>
    cases heq
    cases h
    omega

theorem sound_nextHeader (h : s.Sound) : s.nextHeader.2.Sound := by
  induction s using nextHeader.induct with
  | case1 s e r hr =>
    have hle := available_le_of_readHeader hr
    have hf := h.frames
    rw [nextHeader_of_error hr]
    exact ⟨h.delivered, h.staged, by dsimp only; omega⟩
  | case2 s header r hr hlt s' hskip ih =>
    have hf := h.frames
    rw [nextHeader_of_ok hr, if_pos hskip]
    exact ih ⟨h.delivered, h.staged, by simp only [s']; omega⟩
  | case3 s header r hr hlt hskip =>
    have hf := h.frames
    rw [nextHeader_of_ok hr, if_neg hskip]
    exact ⟨h.delivered, h.staged, by dsimp only; omega⟩

theorem sound_pull (h : s.Sound) (room : Nat) : (s.pull room).2.Sound := by
  rw [pull_eq]
  split
  · exact sound_deliver h
  · split
    · exact h
    · have hn := sound_nextHeader h
      rw [takeNext]
      rcases hr : s.nextHeader with ⟨e | header, s'⟩ <;> rw [hr] at hn
      · exact hn
      · exact sound_takeBody hn header

end FramedSource

instance : Inlet FramedSource where
  draw := FramedSource.draw
  ofReader r := { reader := r }
  flow := FramedSource.flow
  Sound := FramedSource.Sound
  faithful := FramedSource.faithful
  draw_eq h _ := FramedSource.draw_eq h _
  sound_pull room h := FramedSource.sound_pull h room
  sound_ofReader h := ⟨Nat.le_refl _, Nat.two_pow_pos 16, by dsimp only; omega⟩
  available_ofReader r := Nat.zero_add r.available

/-! ## Sinks -/

namespace FramedSink

/-- Write a chunk as one frame, whose header has fifteen bits for the length. -/
def send (s : FramedSink) (chunk : Bytes) (last : Bool) :
    Machine (Except TransferError Unit × FramedSink) :=
  if s.finished then return (.error (.framing .pushAfterEnd), s)
  else if framePayloadLimit < chunk.length then
    return (.error (.framing (.chunkTooLarge chunk.length)), s)
  else do
    let _ ← narrow 15 chunk.length
    match Frame.write s.writer chunk last with
    | (.error e, w) => return (.error e, { s with writer := w })
    | (.ok (), w) => return (.ok (), ⟨w, ← add 64 s.frames 1, last⟩)

theorem send_eq {s : FramedSink} (h : s.frames + 1 < 2 ^ 64) (chunk : Bytes) (last : Bool) :
    s.send chunk last = .ok (s.push chunk last) := by
  unfold send push
  by_cases hf : s.finished = true
  · rw [if_pos hf, if_pos hf]
    rfl
  · rw [if_neg hf, if_neg hf]
    by_cases hl : framePayloadLimit < chunk.length
    · rw [if_pos hl, if_pos hl]
      rfl
    · have hn : chunk.length < 2 ^ 15 := by
        simp only [framePayloadLimit] at hl
        omega
      rw [if_neg hl, if_neg hl, narrow_of_lt hn, bind_ok]
      rcases Frame.write s.writer chunk last with ⟨e | ⟨⟩, w⟩
      · rfl
      · rw [add_of_lt h]
        rfl

/-- At most one more frame is written. -/
theorem frames_push (s : FramedSink) (chunk : Bytes) (last : Bool) :
    (s.push chunk last).2.frames ≤ s.frames + 1 := by
  unfold push
  split
  · exact Nat.le_succ _
  · split
    · exact Nat.le_succ _
    · split
      · exact Nat.le_succ _
      · exact Nat.le_refl _

end FramedSink

instance : Outlet RawSink where
  send s chunk last := .ok (s.push chunk last)
  ofWriter w := ⟨w⟩
  sent _ := 0
  send_eq _ _ := rfl
  sent_push _ _ _ := Nat.zero_le _
  sent_ofWriter _ := rfl

instance : Outlet FramedSink where
  send := FramedSink.send
  ofWriter w := { writer := w }
  sent := FramedSink.frames
  send_eq last h := FramedSink.send_eq h _ last
  sent_push := FramedSink.frames_push
  sent_ofWriter _ := rfl

instance : Outlet NoSink where
  send s chunk _ := .ok (s.push chunk)
  ofWriter _ := ⟨⟩
  sent _ := 0
  send_eq _ _ := rfl
  sent_push _ _ _ := Nat.zero_le _
  sent_ofWriter _ := rfl

end BlockSync
