import BlockSync.Transducer
import BlockSync.Signature.Basic

/-!
# Loading signatures

The transducer from the stream of a signature to nothing: it keeps what it reads, the header first
and then records, each of which is the block at the next position.

* `SignatureLoader.absorb`: bytes arrive; a header that is refused stays, and is refused again when
  more bytes follow;
* `SignatureLoader.step`: the stream has to end between two records;
* `SignatureLoader.result`: the signature, once the stream has ended.
-/

namespace BlockSync

/-- The state of reading the stream of a signature. -/
structure SignatureLoader where
  /-- The part of the header or of the current record that has arrived. -/
  field : Bytes
  /-- What has been read so far, once the header is complete. -/
  signature : Option Signature
  /-- The stream has ended where it may. -/
  done : Bool

namespace SignatureLoader

/-- Nothing has been read. -/
def start : SignatureLoader := ⟨[], none, false⟩

/-- Bytes arrive. The number of those that a refused header leaves unread is given, too. -/
def absorb : SignatureLoader → Bytes → Except TransferError Unit × SignatureLoader × Nat
  | l, [] => (.ok (), l, 0)
  | ⟨field, none, done⟩, b :: bs =>
    if signatureHeaderLength ≤ field.length then
      ((Params.ofHeader field).map fun _ => (), ⟨field, none, done⟩, bs.length + 1)
    else
      let field := field ++ [b]
      if field.length = signatureHeaderLength then
        match Params.ofHeader field with
        | .error e => (.error e, ⟨field, none, done⟩, bs.length)
        | .ok params => absorb ⟨[], some ⟨params, #[]⟩, done⟩ bs
      else absorb ⟨field, none, done⟩ bs
  | ⟨field, some ⟨params, blocks⟩, done⟩, b :: bs =>
    let field := field ++ [b]
    if field.length = params.recordLength then
      let block := BlockSum.ofRecord (UInt32.ofNat blocks.size) field
      absorb ⟨[], some ⟨params, blocks.push block⟩, done⟩ bs
    else absorb ⟨field, some ⟨params, blocks⟩, done⟩ bs

/-- What is reported when everything at hand has been read. -/
def close (l : SignatureLoader) : Except TransferError Status × SignatureLoader :=
  if l.signature.isNone then (.error (.invalidSignature .endedInHeader), l)
  else if !l.field.isEmpty then (.error (.invalidSignature .endedInRecord), l)
  else (.ok .done, { l with done := true })

/-- One step. -/
def step (s : Bench SignatureLoader) : Except TransferError Status × Bench SignatureLoader :=
  let (result, l, rest) := s.state.absorb s.input.content
  let input := s.input.drop (s.input.length - rest)
  match result with
  | .error e => (.error e, ⟨l, input, s.output⟩)
  | .ok () =>
    if input.atEnd then
      let (result, l) := l.close
      (result, ⟨l, input, s.output⟩)
    else (.ok .blocked, ⟨l, input, s.output⟩)

/-- The signature, once the stream has ended. -/
def result (l : SignatureLoader) : Except TransferError Signature :=
  match l.signature with
  | some s => if l.done then .ok s else .error (.invalidSignature .incomplete)
  | none => .error (.invalidSignature .incomplete)

end SignatureLoader

instance : Transducer SignatureLoader where
  step s :=
    let (result, s) := SignatureLoader.step s
    (result.mapError .error, s)

end BlockSync
