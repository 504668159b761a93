import BlockSync.Stream.Source

/-!
# What sources deliver

A flow is a byte string that arrives somehow, and the way in which it ends. The pieces in which a
reader has it and the pulls that are made of a source do not show in it.

* `Flow`: bytes and their end;
* `Reader.flow`: the flow of a reader, of which reading stops at the first read that delivers
  nothing; `Reader.flowFrom_append`: the reads into which data is split do not show in it;
* `Reader.Reads`: what a reader becomes by reading just some bytes, in one go or in several;
* `Source.Faithful`, `Source.Delivers`: pulls of any sizes deliver a flow;
* **`RawSource.delivers`**: a raw source delivers the flow of its reader.
-/

namespace BlockSync

/-- Bytes that arrive, and how they end. -/
structure Flow (ε : Type) where
  bytes : Bytes
  ending : Except ε Unit

/-- Bytes that arrive before a flow. -/
def Flow.after {ε : Type} (f : Flow ε) (bs : Bytes) : Flow ε := { f with bytes := bs ++ f.bytes }

@[simp] theorem Flow.after_nil {ε : Type} (f : Flow ε) : f.after [] = f := rfl

theorem Flow.after_after {ε : Type} (f : Flow ε) (bs cs : Bytes) :
    (f.after cs).after bs = f.after (bs ++ cs) := by
  simp [after]

/-! ## Readers -/

/-- The piece does not stop a request: there is data in it, or it is an interrupted read. -/
def Piece.Passes : Piece → Prop
  | .data bs => bs ≠ []
  | .fault f => f.kind = .interrupted

namespace Reader

/-- The flow of some pieces. A read that is interrupted is simply made again. -/
def flowFrom : List Piece → Flow Fault
  | [] => ⟨[], .ok ()⟩
  | .fault f :: rest => if f.kind = .interrupted then flowFrom rest else ⟨[], .error f⟩
  | .data [] :: _ => ⟨[], .ok ()⟩
  | .data (b :: bs) :: rest => (flowFrom rest).after (b :: bs)

/-- The flow of a reader. -/
def flow (r : Reader) : Flow Fault := flowFrom r.pieces

theorem flowFrom_data {bs : Bytes} (h : bs ≠ []) (rest : List Piece) :
    flowFrom (.data bs :: rest) = (flowFrom rest).after bs := by
  cases bs with
  | nil => exact absurd rfl h
  | cons b bs => rfl

/-- It does not matter into which reads data is split, nor where reads are interrupted. -/
theorem flowFrom_append {pieces : List Piece} (h : ∀ p ∈ pieces, p.Passes) (rest : List Piece) :
    flowFrom (pieces ++ rest) = (flowFrom rest).after (⟨pieces⟩ : Reader).content := by
  induction pieces with
  | nil => rfl
  | cons p pieces ih =>
    rw [List.forall_mem_cons] at h
    have hc : (⟨p :: pieces⟩ : Reader).content = p.content ++ (⟨pieces⟩ : Reader).content := rfl
    rw [List.cons_append, hc, ← Flow.after_after, ← ih h.2]
    cases p with
    | data bs => exact flowFrom_data h.1 _
    | fault f => exact if_pos h.1

theorem flow_ofBytes (bs : Bytes) : (ofBytes bs).flow = ⟨bs, .ok ()⟩ := by
  cases bs with
  | nil => rfl
  | cons b bs => simp [ofBytes, flow, flowFrom, Flow.after]

/-- What is gathered from a flow, and what becomes of it. -/
def Gathers (f : Flow Fault) (count : Nat) : Bytes × Stop × Reader → Prop
  | (bs, .full, r) => bs.length = count ∧ f = r.flow.after bs
  | (bs, .ended, _) => bs.length < count ∧ f = ⟨bs, .ok ()⟩
  | (bs, .fault e, _) => bs.length < count ∧ f = ⟨bs, .error e⟩

/-- What is gathered before more is gathered. -/
theorem Gathers.after {f : Flow Fault} {count : Nat} {bs : Bytes} {stop : Stop} {r : Reader}
    (h : Gathers f count (bs, stop, r)) (cs : Bytes) :
    Gathers (f.after cs) (cs.length + count) (cs ++ bs, stop, r) := by
  cases stop with
  | full => exact ⟨by rw [List.length_append, h.1], by rw [h.2, Flow.after_after]⟩
  | ended => exact ⟨by rw [List.length_append]; have := h.1; omega, by rw [h.2]; rfl⟩
  | fault e => exact ⟨by rw [List.length_append]; have := h.1; omega, by rw [h.2]; rfl⟩

theorem gatherFrom_of_lt {count : Nat} {bs : Bytes} (h : count < bs.length) (rest : List Piece) :
    gatherFrom count (.data bs :: rest) =
      (bs.take count, .full, .data (bs.drop count) :: rest) := by
  cases count with
  | zero => rfl
  | succ count =>
    cases bs with
    | nil => exact absurd h (Nat.not_lt_zero _)
    | cons b bs =>
      rw [List.length_cons] at h
      have hne : bs.drop count ≠ [] := List.ne_nil_of_length_pos (by
        rw [List.length_drop]
        omega)
      obtain ⟨c, left, hleft⟩ := List.exists_cons_of_ne_nil hne
      simp only [gatherFrom, hleft, List.take_succ_cons, List.drop_succ_cons]

theorem gatherFrom_of_le {count : Nat} {bs : Bytes} (hne : bs ≠ []) (h : bs.length ≤ count)
    (rest : List Piece) : gatherFrom count (.data bs :: rest) =
      (bs ++ (gatherFrom (count - bs.length) rest).1, (gatherFrom (count - bs.length) rest).2) := by
  cases bs with
  | nil => exact absurd rfl hne
  | cons b bs =>
    cases count with
    | zero => exact absurd h (Nat.not_succ_le_zero _)
    | succ count =>
      rw [List.length_cons] at h ⊢
      have hdrop : bs.drop count = [] := List.drop_of_length_le (Nat.le_of_succ_le_succ h)
      rw [Nat.add_sub_add_right]
      simp only [gatherFrom, hdrop]

theorem gatherFrom_spec (count : Nat) (pieces : List Piece) :
    Gathers (flowFrom pieces) count ((gatherFrom count pieces).1, (gatherFrom count pieces).2.1,
      ⟨(gatherFrom count pieces).2.2⟩) := by
  induction pieces generalizing count with
  | nil =>
    cases count with
    | zero => exact ⟨rfl, rfl⟩
    | succ count => exact ⟨Nat.succ_pos _, rfl⟩
  | cons p pieces ih =>
    cases count with
    | zero => cases p <;> exact ⟨rfl, rfl⟩
    | succ count =>
      cases p with
      | fault f =>
        simp only [gatherFrom, flowFrom]
        split
        · exact ih (count + 1)
        · exact ⟨Nat.succ_pos _, rfl⟩
      | data bs =>
        cases bs with
        | nil => exact ⟨Nat.succ_pos _, rfl⟩
        | cons b bs =>
          have hne : b :: bs ≠ [] := List.cons_ne_nil b bs
          rw [flowFrom_data hne]
          rcases Nat.lt_or_ge (count + 1) (b :: bs).length with hl | hl
          · have hleft : (b :: bs).drop (count + 1) ≠ [] := List.ne_nil_of_length_pos (by
              rw [List.length_drop]
              omega)
            rw [gatherFrom_of_lt hl]
            refine ⟨List.length_take_of_le (Nat.le_of_lt hl), ?_⟩
            rw [flow, flowFrom_data hleft, Flow.after_after, List.take_append_drop]
          · -- the piece does not fill the request
            have h := (ih (count + 1 - (b :: bs).length)).after (b :: bs)
            rw [Nat.add_sub_cancel' hl] at h
            rw [gatherFrom_of_le hne hl]
            exact h

/-- Gathering takes what is asked for from the front of a flow, or all of it. -/
theorem gather_spec (r : Reader) (count : Nat) : Gathers r.flow count (r.gather count) :=
  gatherFrom_spec count r.pieces

/-- A request is filled in one go or in two. -/
theorem gatherFrom_add {count : Nat} {pieces rest : List Piece} {bs : Bytes}
    (h : gatherFrom count pieces = (bs, .full, rest)) (more : Nat) :
    gatherFrom (count + more) pieces =
      (bs ++ (gatherFrom more rest).1, (gatherFrom more rest).2) := by
  induction pieces generalizing count bs with
  | nil =>
    cases count with
    | zero =>
      cases h
      rw [Nat.zero_add, List.nil_append]
    | succ count => cases h
  | cons p pieces ih =>
    rcases Nat.eq_zero_or_pos count with rfl | hpos
    · have hnone : gatherFrom 0 (p :: pieces) = ([], .full, p :: pieces) := by cases p <;> rfl
      rw [hnone] at h
      cases h
      rw [Nat.zero_add, List.nil_append]
    · obtain ⟨count, rfl⟩ := Nat.exists_eq_succ_of_ne_zero (Nat.ne_of_gt hpos)
      cases p with
      | fault f =>
        rw [Nat.succ_add]
        simp only [gatherFrom] at h ⊢
        split at h
        · next hf => rw [if_pos hf, ← ih h, Nat.succ_add]
        · cases h
      | data piece =>
        by_cases hne : piece = []
        · subst hne
          cases h
        · rcases Nat.lt_or_ge count.succ piece.length with hl | hl
          · -- what is left of the piece fills a part of the second request, or all of it
            have hleft : piece.drop count.succ ≠ [] := List.ne_nil_of_length_pos (by
              rw [List.length_drop]
              omega)
            rw [gatherFrom_of_lt hl] at h
            cases h
            rcases Nat.lt_or_ge (count.succ + more) piece.length with hm | hm
            · rw [gatherFrom_of_lt hm, gatherFrom_of_lt (by rw [List.length_drop]; omega),
                List.drop_drop, List.take_add]
            · have hsub : count.succ + more - piece.length = more - (piece.length - count.succ) := by
                omega
              rw [gatherFrom_of_le hne hm, gatherFrom_of_le hleft (by rw [List.length_drop]; omega),
                List.length_drop, ← List.append_assoc, List.take_append_drop, hsub]
          · have hsub : count.succ + more - piece.length = count.succ - piece.length + more := by omega
            rw [gatherFrom_of_le hne hl] at h
            rw [gatherFrom_of_le hne (by omega), hsub]
            rcases hpieces : gatherFrom (count.succ - piece.length) pieces with ⟨front, stop, left⟩
            rw [hpieces] at h
            cases h
            rw [ih hpieces, List.append_assoc]

/-- By reading just the given bytes one reader becomes the other. -/
def Reads (r : Reader) (bs : Bytes) (r' : Reader) : Prop := r.gather bs.length = (bs, .full, r')

theorem reads_iff {r r' : Reader} {bs : Bytes} :
    r.Reads bs r' ↔ gatherFrom bs.length r.pieces = (bs, .full, r'.pieces) := by
  obtain ⟨pieces'⟩ := r'
  rcases hg : gatherFrom bs.length r.pieces with ⟨front, stop, left⟩
  simp [Reads, gather, hg]

theorem Reads.refl (r : Reader) : r.Reads [] r := by
  obtain ⟨_ | ⟨p, pieces⟩⟩ := r
  · rfl
  · cases p <;> rfl

theorem Reads.trans {r r' r'' : Reader} {bs cs : Bytes} (h : r.Reads bs r') (h' : r'.Reads cs r'') :
    r.Reads (bs ++ cs) r'' := by
  rw [reads_iff] at h h' ⊢
  rw [List.length_append, gatherFrom_add h, h']

/-- The bytes at the front of a flow are read. -/
theorem reads_of_flow {r : Reader} {bs : Bytes} {f : Flow Fault} (h : r.flow = f.after bs) :
    ∃ r', r.Reads bs r' ∧ r'.flow = f := by
  have hg := r.gather_spec bs.length
  rw [h] at hg
  rcases hr : r.gather bs.length with ⟨bs', _ | _ | e, r'⟩ <;> rw [hr] at hg
  · obtain ⟨hl, hf⟩ := hg
    rw [Flow.after, Flow.after, Flow.mk.injEq] at hf
    obtain ⟨hbytes, hending⟩ := hf
    obtain ⟨rfl, hrest⟩ := List.append_inj hbytes hl.symm
    refine ⟨r', hr, ?_⟩
    show (⟨r'.flow.bytes, r'.flow.ending⟩ : Flow Fault) = ⟨f.bytes, f.ending⟩
    rw [hrest, hending]
  · obtain ⟨hl, hf⟩ := hg
    have hlen := congrArg (List.length ∘ Flow.bytes) hf
    simp only [Function.comp, Flow.after, List.length_append] at hlen
    omega
  · obtain ⟨hl, hf⟩ := hg
    have hlen := congrArg (List.length ∘ Flow.bytes) hf
    simp only [Function.comp, Flow.after, List.length_append] at hlen
    omega

theorem Reads.flow {r r' : Reader} {bs : Bytes} {f : Flow Fault} (h : r.Reads bs r')
    (hf : r.flow = f.after bs) : r'.flow = f := by
  obtain ⟨r'', hr, hflow⟩ := reads_of_flow hf
  obtain rfl : r' = r'' := congrArg (·.2.2) (h.symm.trans hr)
  exact hflow

theorem length_flowFrom_le (pieces : List Piece) :
    (flowFrom pieces).bytes.length ≤ (⟨pieces⟩ : Reader).available := by
  induction pieces with
  | nil => exact Nat.le_refl 0
  | cons p pieces ih =>
    have hc : (⟨p :: pieces⟩ : Reader).available =
        p.content.length + (⟨pieces⟩ : Reader).available := by
      simp [available, content]
    rw [hc]
    cases p with
    | fault f =>
      simp only [flowFrom]
      split
      · simpa [Piece.content] using ih
      · exact Nat.zero_le _
    | data bs =>
      cases bs with
      | nil => exact Nat.zero_le _
      | cons b bs =>
        simp only [flowFrom, Flow.after, Piece.content, List.length_append]
        omega

theorem length_flow_le (r : Reader) : r.flow.bytes.length ≤ r.available :=
  length_flowFrom_le r.pieces

end Reader

/-! ## Sources -/

namespace Source

variable {σ : Type}

/-- What a pull delivers of a flow. After the last of its bytes a source is not pulled again. -/
def Outcome (Holds : σ → Flow TransferError → Prop) (f : Flow TransferError) (room : Nat) :
    Except TransferError Delivery × σ → Prop
  | (.error e, _) => f.ending = .error e
  | (.ok pulled, source) => pulled.count = pulled.bytes.length ∧ pulled.count ≤ room ∧
      if (pulled.ended || pulled.count == 0) = true then f = ⟨pulled.bytes, .ok ()⟩
      else ∃ rest : Flow TransferError, f = rest.after pulled.bytes ∧ Holds source rest

section

variable {Holds : σ → Flow TransferError → Prop} {f rest : Flow TransferError} {room : Nat}
  {bs : Bytes} (source : σ)

theorem outcome_more (hne : bs ≠ []) (hl : bs.length ≤ room) (hf : f = rest.after bs)
    (h : Holds source rest) : Outcome Holds f room (.ok (.of bs false), source) := by
  have hc : ¬ ((Delivery.of bs false).ended || (Delivery.of bs false).count == 0) = true := by
    simpa [Delivery.of] using hne
  refine ⟨rfl, hl, ?_⟩
  rw [if_neg hc]
  exact ⟨rest, hf, h⟩

theorem outcome_last (hl : bs.length ≤ room) (hf : f = ⟨bs, .ok ()⟩) :
    Outcome Holds f room (.ok (.of bs true), source) := by
  refine ⟨rfl, hl, ?_⟩
  rw [if_pos (show ((Delivery.of bs true).ended || _) = true from rfl)]
  exact hf

end

variable [Source σ]

/-- Sources deliver the flows that they hold, whatever the sizes of the pulls. -/
structure Faithful (Holds : σ → Flow TransferError → Prop) : Prop where
  pull : ∀ {source : σ} {f : Flow TransferError}, Holds source f → ∀ {room : Nat}, 0 < room →
    Outcome Holds f room (Source.pull source room)
  available : ∀ {source : σ} {f : Flow TransferError}, Holds source f →
    f.bytes.length ≤ Source.available source

/-- The source delivers the flow. -/
def Delivers (source : σ) (f : Flow TransferError) : Prop :=
  ∃ Holds, Faithful Holds ∧ Holds source f

theorem Delivers.available {source : σ} {f : Flow TransferError} (h : Delivers source f) :
    f.bytes.length ≤ Source.available source := by
  obtain ⟨Holds, hfaithful, hholds⟩ := h
  exact hfaithful.available hholds

end Source

namespace RawSource

/-- The flow of a raw source. -/
def flow (s : RawSource) : Flow TransferError :=
  ⟨s.reader.flow.bytes, s.reader.flow.ending.mapError .io⟩

theorem faithful : Source.Faithful fun (s : RawSource) f => s.flow = f where
  available {s f} h := by subst h; exact s.reader.length_flow_le
  pull {s f} h room hroom := by
    subst h
    have hg := s.reader.gather_spec room
    change Source.Outcome _ _ room (s.pull room)
    unfold RawSource.pull flow
    rcases hr : s.reader.gather room with ⟨bs, _ | _ | e, r⟩ <;> rw [hr] at hg
    · have hne : bs ≠ [] := List.ne_nil_of_length_pos (by rw [hg.1]; exact hroom)
      exact Source.outcome_more (⟨r⟩ : RawSource) hne (Nat.le_of_eq hg.1) (by rw [hg.2]; rfl) rfl
    · exact Source.outcome_last (⟨r⟩ : RawSource) (Nat.le_of_lt hg.1) (by rw [hg.2]; rfl)
    · rw [hg.2]
      exact rfl

/-- **A raw source delivers the flow of its reader.** -/
theorem delivers (s : RawSource) : Source.Delivers s s.flow := ⟨_, faithful, rfl⟩

theorem delivers_ofBytes (bs : Bytes) : Source.Delivers (⟨.ofBytes bs⟩ : RawSource) ⟨bs, .ok ()⟩ := by
  have h := delivers ⟨.ofBytes bs⟩
  rwa [flow, Reader.flow_ofBytes] at h

end RawSource

end BlockSync
