import BlockSync.Proofs.Pipe.Broken
import BlockSync.Proofs.Stream.RoundTrip

/-!
# Reads do not show

How a reader splits its data into reads, and how often it is interrupted, shows neither in the pulls of
a raw source nor in a run.

* `Reader.Meets`: the bytes that come before a read delivers nothing or fails;
* `Flow.deal`, `untilEnd`: what pulls are answered until the end is told or a pull fails;
* **`RawSource.untilEnd_pulls`**: that depends on the bytes and their end only;
* **`RawSource.alike`**: and so do runs;
* `Pipe.pulls_of_broken`: a run in which a pull fails, fails like it, and is never told of an end;
* **`RawSource.reads_do_not_show`**: all of this of readers.
-/

namespace BlockSync

/-! ## What comes before the end -/

namespace Reader

/-- In reads of whatever lengths, interrupted however often, a reader delivers some bytes, and then a
read has this result. -/
def Meets (r : Reader) (bs : Bytes) (result : Except Fault Bytes) : Prop :=
  ∃ front rest, r.pieces = front ++ rest ∧ (∀ p ∈ front, p.Passes) ∧
    (⟨front⟩ : Reader).content = bs ∧ (read 1 rest).1 = result

variable {r : Reader} {bs : Bytes} {f : Fault}

theorem flow_of_meets_fault (h : r.Meets bs (.error f)) (hf : f.kind ≠ .interrupted) :
    r.flow = ⟨bs, .error f⟩ := by
  obtain ⟨front, rest, hpieces, hpass, rfl, hread⟩ := h
  rw [flow, hpieces, flowFrom_append hpass]
  rcases rest with _ | ⟨bs | f', rest⟩ <;> cases hread
  rw [flowFrom, if_neg hf, Flow.after, List.append_nil]

/-- The data ends with a read that delivers nothing. -/
theorem meets_iff_flow : r.Meets bs (.ok []) ↔ r.flow = ⟨bs, .ok ()⟩ := by
  constructor
  · rintro ⟨front, rest, hpieces, hpass, rfl, hread⟩
    rw [flow, hpieces, flowFrom_append hpass]
    rcases rest with _ | ⟨⟨_ | ⟨b, bs⟩⟩ | f', rest⟩
    · rw [flowFrom, Flow.after, List.append_nil]
    · rw [flowFrom, Flow.after, List.append_nil]
    · cases hread
    · cases hread
  · obtain ⟨pieces⟩ := r
    intro h
    change flowFrom pieces = _ at h
    induction pieces generalizing bs with
    | nil =>
      cases h
      exact ⟨[], [], rfl, List.forall_mem_nil _, rfl, rfl⟩
    | cons p pieces ih =>
      cases p with
      | fault f =>
        by_cases hf : f.kind = .interrupted
        · rw [flowFrom, if_pos hf] at h
          obtain ⟨front, rest, rfl, hpass, hbs, hread⟩ := ih h
          exact ⟨.fault f :: front, rest, rfl, List.forall_mem_cons.mpr ⟨hf, hpass⟩, hbs, hread⟩
        · rw [flowFrom, if_neg hf] at h
          cases h
      | data cs =>
        by_cases hne : cs = []
        · subst hne
          cases h
          exact ⟨[], .data [] :: pieces, rfl, List.forall_mem_nil _, rfl, rfl⟩
        · rw [flowFrom_data hne] at h
          obtain ⟨hbytes, hending⟩ := Flow.mk.inj h
          have hrest : flowFrom pieces = ⟨(flowFrom pieces).bytes, .ok ()⟩ := by rw [← hending]
          obtain ⟨front, rest, rfl, hpass, hbs, hread⟩ := ih hrest
          refine ⟨.data cs :: front, rest, rfl, List.forall_mem_cons.mpr ⟨hne, hpass⟩, ?_, hread⟩
          rw [← hbytes, ← hbs]
          rfl

end Reader

/-! ## Pulls until the end -/

/-- What pulls with the given rooms are answered until a flow ends: each is filled as long as there are
bytes enough, and the one that cannot be filled is told how the flow ends. -/
def Flow.deal : Flow TransferError → List Nat → List (Except TransferError Delivery)
  | _, [] => []
  | f, room :: rooms =>
    if room ≤ f.bytes.length then
      .ok (.of (f.bytes.take room) false) :: deal ⟨f.bytes.drop room, f.ending⟩ rooms
    else [f.ending.map fun _ => .of f.bytes true]

/-- The answers up to and including the first that tells the end or is a failure. -/
def untilEnd : List (Except TransferError Delivery) → List (Except TransferError Delivery)
  | [] => []
  | .error e :: _ => [.error e]
  | .ok d :: answers => if d.ended then [.ok d] else .ok d :: untilEnd answers

namespace RawSource

/-- A pull is filled if there are bytes enough; if not, it delivers what is left and tells how the flow
ends. -/
theorem pull_cases (s : RawSource) (room : Nat) :
    (room ≤ s.flow.bytes.length ∧ ∃ s' : RawSource, Source.pull s room =
        (.ok (.of (s.flow.bytes.take room) false), s') ∧
          s'.flow = ⟨s.flow.bytes.drop room, s.flow.ending⟩) ∨
      (s.flow.bytes.length < room ∧ ∃ s' : RawSource, Source.pull s room =
        (s.flow.ending.map fun _ => .of s.flow.bytes true, s')) := by
  have hg := s.reader.gather_spec room
  change (_ ∧ ∃ s', s.pull room = _ ∧ _) ∨ (_ ∧ ∃ s', s.pull room = _)
  unfold RawSource.pull flow
  rcases hr : s.reader.gather room with ⟨bs, _ | _ | e, r⟩ <;> rw [hr] at hg
  · obtain ⟨hlen, hflow⟩ := hg
    have htake : s.reader.flow.bytes.take room = bs := by
      rw [hflow]
      exact List.take_left' hlen
    have hdrop : s.reader.flow.bytes.drop room = r.flow.bytes := by
      rw [hflow]
      exact List.drop_left' hlen
    refine .inl ⟨?_, ⟨r⟩, ?_, ?_⟩
    · rw [hflow, Flow.after, List.length_append, hlen]
      exact Nat.le_add_right _ _
    · rw [htake]
    · rw [hdrop, hflow]
      rfl
  · obtain ⟨hlen, hflow⟩ := hg
    rw [hflow]
    exact .inr ⟨hlen, ⟨r⟩, rfl⟩
  · obtain ⟨hlen, hflow⟩ := hg
    rw [hflow]
    exact .inr ⟨hlen, ⟨r⟩, rfl⟩

/-- **What pulls are answered until the end depends on the flow only.** -/
theorem untilEnd_pulls (s : RawSource) (rooms : List Nat) :
    untilEnd (Source.pulls s rooms).1 = s.flow.deal rooms := by
  induction rooms generalizing s with
  | nil => rfl
  | cons room rooms ih =>
    rw [Source.pulls, inTurn, Flow.deal]
    rcases s.pull_cases room with ⟨hle, s', hpull, hflow⟩ | ⟨hlt, s', hpull⟩
    · rw [if_pos hle, ← hflow, ← ih s', hpull]
      rfl
    · rw [if_neg (Nat.not_le_of_lt hlt), hpull]
      cases s.flow.ending <;> rfl

/-- Sources with the same flow are answered alike. -/
theorem alike : Source.Alike fun s s' : RawSource => s.flow = s'.flow := by
  intro s s' h room _
  rcases s.pull_cases room with ⟨hle, t, hpull, hflow⟩ | ⟨hlt, t, hpull⟩
  · rcases s'.pull_cases room with ⟨-, t', hpull', hflow'⟩ | ⟨hlt', -⟩
    · rw [← h] at hpull' hflow'
      refine ⟨t', by rw [hpull, hpull'], fun _ _ _ => ?_⟩
      rw [hpull]
      exact hflow.trans hflow'.symm
    · rw [← h] at hlt'
      exact absurd hle (Nat.not_le_of_lt hlt')
  · rcases s'.pull_cases room with ⟨hle', -⟩ | ⟨-, t', hpull'⟩
    · rw [← h] at hle'
      exact absurd hle' (Nat.not_le_of_lt hlt)
    · rw [← h] at hpull'
      refine ⟨t', by rw [hpull, hpull'], fun d hd hopen => ?_⟩
      rw [hpull] at hd
      cases he : s.flow.ending with
      | error e =>
        rw [he] at hd
        cases hd
      | ok =>
        rw [he] at hd
        cases hd
        cases hopen

/-- What a pull says of itself. -/
theorem of_pull_ok {r : Reader} {room : Nat} (hroom : 0 < room) {d : Delivery}
    (h : (Source.pull (⟨r⟩ : RawSource) room).1 = .ok d) :
    d.count = d.bytes.length ∧ (d.ended = false → d.count = room) ∧
      (d.ended = true ↔ d.count < room ∧ r.Meets d.bytes (.ok [])) ∧ (d.count = 0 → d.ended = true) := by
  rcases pull_cases ⟨r⟩ room with ⟨hle, s', hpull, -⟩ | ⟨hlt, s', hpull⟩ <;> rw [hpull] at h
  · cases h
    have hcount : (Delivery.of ((⟨r⟩ : RawSource).flow.bytes.take room) false).count = room :=
      List.length_take_of_le hle
    refine ⟨rfl, fun _ => hcount, ⟨nofun, fun hshort => ?_⟩, fun hzero => ?_⟩
    · exact absurd hcount (Nat.ne_of_lt hshort.1)
    · exact absurd (hcount.symm.trans hzero) (Nat.ne_of_gt hroom)
  · cases he : r.flow.ending with
    | error e =>
      rw [flow, he] at h
      cases h
    | ok =>
      rw [flow, he] at h
      cases h
      refine ⟨rfl, nofun, ⟨fun _ => ⟨hlt, ?_⟩, fun _ => rfl⟩, fun _ => rfl⟩
      rw [Reader.meets_iff_flow, ← he]
      rfl

end RawSource

/-! ## Runs -/

theorem Always.of_append {P : List Event → Event → Prop} {log rest : List Event}
    (h : Always P (log ++ rest)) : Always P log :=
  fun before e after heq => h before e (after ++ rest) (by rw [heq]; simp)

namespace Pipe

variable {σ τ κ : Type} [Source σ] [Transducer τ] [Sink κ]

/-- **A run in which a pull fails, fails like it**, and no pull ever tells the end of a stream that breaks
off. -/
theorem pulls_of_broken (hb : Source.Bounded σ) (ho : Transducer.Orderly τ) {source : σ}
    {f : Flow TransferError} {e : TransferError} (hs : Source.Delivers source f)
    (he : f.ending = .error e) (p : Pipe) (limit : Nat) (state : τ) (sink : κ) :
    let w := p.watch Event.record [] limit source state sink
    (∀ event ∈ w.2.watcher, event.endsStream = false) ∧
      ∀ room c, Event.pulled room (.error c) ∈ w.2.watcher → c = e ∧ w.1 = .error (.error e) := by
  intro w
  obtain ⟨Holds, hfaithful, hholds⟩ := hs
  have hw := p.concluded_watch limit source state sink hb ho
  have hsplit : ∀ before event after, w.2.watcher = before ++ event :: after →
      event.endsStream = false ∧
        ∀ room c, event = .pulled room (.error c) → c = e ∧ w.1 = .error (.error e) := by
    intro before event after hlog
    have hallowed := hw.logged.allowed
    have hallows := hallowed _ _ _ hlog
    -- before a call no other has failed
    have hunfailed : ∀ x ∈ before, x.failure = none := by
      intro x hx
      obtain ⟨front, back, rfl⟩ := List.append_of_mem hx
      cases hc : x.failure with
      | none => rfl
      | some c =>
        rw [List.append_assoc, List.cons_append] at hlog
        have hnil := (hw.failed _ _ _ _ hlog hc).1
        exact absurd hnil (List.append_ne_nil_of_right_ne_nil _ (List.cons_ne_nil _ _))
    have hbefore : Always (Run.Allows p source sink) before := by
      change Always _ w.2.watcher at hallowed
      rw [hlog] at hallowed
      exact hallowed.of_append
    obtain ⟨⟨rest, hrest, hstill⟩, -⟩ := hfaithful.open_of_broken hholds he hbefore hunfailed
    cases event with
    | pulled room result =>
      obtain ⟨hresult, hroom, -⟩ := hallows
      have hpull := hfaithful.pull hstill hroom
      rcases hp : Source.pull (Source.replay source before) room with ⟨c | d, next⟩ <;>
        rw [hp] at hpull hresult <;> subst hresult
      · obtain rfl : e = c := Except.error.inj (hrest.symm.trans hpull)
        refine ⟨rfl, ?_⟩
        rintro room' c' heq
        cases heq
        exact ⟨rfl, (hw.failed _ _ _ _ hlog rfl).2.1⟩
      · refine ⟨?_, nofun⟩
        obtain ⟨-, -, hnext⟩ := hpull
        by_contra hends
        rw [if_pos (Bool.not_eq_false _ ▸ hends : (d.ended || d.count == 0) = true)] at hnext
        rw [hnext] at hrest
        cases hrest
    | stepping => exact ⟨rfl, nofun⟩
    | stepped => exact ⟨rfl, nofun⟩
    | pushed => exact ⟨rfl, nofun⟩
  refine ⟨fun event hm => ?_, fun room c hm => ?_⟩
  · obtain ⟨before, after, hlog⟩ := List.append_of_mem hm
    exact (hsplit _ _ _ hlog).1
  · obtain ⟨before, after, hlog⟩ := List.append_of_mem hm
    exact (hsplit _ _ _ hlog).2 _ _ rfl

end Pipe

/-! ## Readers -/

namespace RawSource

/-- **How data is split into reads does not show.** Of two readers that deliver the same bytes before a
read that delivers nothing, each in reads of its own and interrupted as often as it may be, all pulls up
to the one that tells the end are answered alike, and runs of an orderly transducer end alike, with the
same pushes and totals and whatever else a watcher notes. A pull is filled unless the data ends, and
tells the end just if it has met the read that delivers nothing. A read that fails otherwise is no end of
the data: the pull that meets it fails with that fault, and so does its run. All transducers here are
orderly. -/
theorem reads_do_not_show :
    (∀ (r r' : Reader) (bs : Bytes), r.Meets bs (.ok []) → r'.Meets bs (.ok []) →
      (∀ rooms : List Nat,
        untilEnd (Source.pulls (⟨r⟩ : RawSource) rooms).1 = Flow.deal ⟨bs, .ok ()⟩ rooms ∧
        untilEnd (Source.pulls (⟨r'⟩ : RawSource) rooms).1 = Flow.deal ⟨bs, .ok ()⟩ rooms) ∧
      ∀ (τ κ ω : Type) [Transducer τ] [Sink κ], Transducer.Orderly τ →
        ∀ (p : Pipe) (look : ω → Event → ω) (watcher : ω) (limit : Nat) (state : τ) (sink : κ),
          let w := p.watch look watcher limit (⟨r⟩ : RawSource) state sink
          let w' := p.watch look watcher limit (⟨r'⟩ : RawSource) state sink
          w'.1 = w.1 ∧ w'.2.sink = w.2.sink ∧ w'.2.totals = w.2.totals ∧ w'.2.bench = w.2.bench ∧
            w'.2.watcher = w.2.watcher) ∧
    (∀ (r : Reader) (room : Nat) (d : Delivery), 0 < room →
      (Source.pull (⟨r⟩ : RawSource) room).1 = .ok d →
        d.count = d.bytes.length ∧ (d.ended = false → d.count = room) ∧
        (d.ended = true ↔ d.count < room ∧ r.Meets d.bytes (.ok [])) ∧
        (d.count = 0 → d.ended = true)) ∧
    (∀ (r : Reader) (bs : Bytes) (f : Fault), r.Meets bs (.error f) → f.kind ≠ .interrupted →
      (∀ rooms : List Nat,
        untilEnd (Source.pulls (⟨r⟩ : RawSource) rooms).1 = Flow.deal ⟨bs, .error (.io f)⟩ rooms) ∧
      ∀ (τ κ : Type) [Transducer τ] [Sink κ], Transducer.Orderly τ →
        ∀ (p : Pipe) (limit : Nat) (state : τ) (sink : κ),
          let w := p.watch Event.record [] limit (⟨r⟩ : RawSource) state sink
          (∀ event ∈ w.2.watcher, event.endsStream = false) ∧
            ∀ room c, Event.pulled room (.error c) ∈ w.2.watcher →
              c = .io f ∧ w.1 = .error (.error (.io f))) ∧
    Transducer.Orderly SignatureEmitter ∧ Transducer.Orderly SignatureLoader ∧
    Transducer.Orderly DeltaEncoder ∧ ∀ (β : Type) [Basis β], Transducer.Orderly (Patcher β) := by
  have hended : ∀ {r : Reader} {bs : Bytes}, r.Meets bs (.ok []) →
      (⟨r⟩ : RawSource).flow = ⟨bs, .ok ()⟩ := by
    intro r bs h
    rw [flow, Reader.meets_iff_flow.mp h]
    rfl
  refine ⟨?_, ?_, ?_, SignatureEmitter.orderly, SignatureLoader.orderly, DeltaEncoder.orderly,
    fun β _ => Patcher.orderly⟩
  · intro r r' bs h h'
    have hflow := hended h
    have hflow' := hended h'
    refine ⟨fun rooms => ?_, ?_⟩
    · rw [untilEnd_pulls, untilEnd_pulls, hflow, hflow']
      exact ⟨rfl, rfl⟩
    · intro τ κ ω _ _ ho p look watcher limit state sink w w'
      obtain ⟨source, hw⟩ := Pipe.watch_of_alike alike ho (hflow.trans hflow'.symm) p look watcher limit
        state sink
      have hw' : w' = (w.1, w.2.fedBy source) := hw
      rw [hw']
      exact ⟨rfl, rfl, rfl, rfl, rfl⟩
  · intro r room d hroom h
    exact of_pull_ok hroom h
  · intro r bs f h hf
    have hflow : (⟨r⟩ : RawSource).flow = ⟨bs, .error (.io f)⟩ := by
      rw [flow, Reader.flow_of_meets_fault h hf]
      rfl
    refine ⟨fun rooms => ?_, ?_⟩
    · rw [untilEnd_pulls, hflow]
    · intro τ κ _ _ ho p limit state sink
      have hending : (⟨r⟩ : RawSource).flow.ending = .error (.io f) := by rw [hflow]
      exact Pipe.pulls_of_broken bounded ho (delivers ⟨r⟩) hending p limit state sink

/-- Three bytes in one read, or in two with interruptions, in front of data that is never reached; and
two bytes before a connection is lost. -/
theorem reads_do_not_show_interrupted :
    let r : Reader := .ofBytes [1, 2, 3]
    let r' : Reader := ⟨[.fault ⟨.interrupted, ""⟩, .data [1], .fault ⟨.interrupted, ""⟩, .data [2, 3],
      .data [], .data [4]]⟩
    let lost : Reader := ⟨[.data [1, 2], .fault ⟨.connectionReset, ""⟩, .data [3]]⟩
    let p : Pipe := ⟨2, by decide, by decide⟩
    let start : SignatureEmitter := ⟨⟨256, 8⟩, #[], 0, .empty, false⟩
    let sink : RawSink := ⟨{}⟩
    r.Meets [1, 2, 3] (.ok []) ∧ r'.Meets [1, 2, 3] (.ok []) ∧
      lost.Meets [1, 2] (.error ⟨.connectionReset, ""⟩) ∧
      untilEnd (Source.pulls (⟨r'⟩ : RawSource) [2, 2, 2]).1 =
        [.ok (.of [1, 2] false), .ok (.of [3] true)] ∧
      (p.watch Event.record [] 9 (⟨r'⟩ : RawSource) start sink).2.watcher =
        (p.watch Event.record [] 9 (⟨r⟩ : RawSource) start sink).2.watcher ∧
      (∀ d, (Source.pull (⟨r'⟩ : RawSource) 4).1 = .ok d → d.count = 3 → d.ended = true) ∧
      untilEnd (Source.pulls (⟨lost⟩ : RawSource) [1, 2, 2]).1 =
        [.ok (.of [1] false), .error (.io ⟨.connectionReset, ""⟩)] := by
  intro r r' lost p start sink
  have hr : r.Meets [1, 2, 3] (.ok []) :=
    ⟨[.data [1, 2, 3]], [], rfl, by simp [Piece.Passes], rfl, rfl⟩
  have hr' : r'.Meets [1, 2, 3] (.ok []) :=
    ⟨r'.pieces.take 4, r'.pieces.drop 4, rfl, by simp [r', Piece.Passes], rfl, rfl⟩
  have hlost : lost.Meets [1, 2] (.error ⟨.connectionReset, ""⟩) :=
    ⟨[.data [1, 2]], lost.pieces.drop 1, rfl, by simp [Piece.Passes], rfl, rfl⟩
  obtain ⟨hends, hpull, hfails, horderly, -⟩ := reads_do_not_show
  obtain ⟨hpulls, hruns⟩ := hends r r' [1, 2, 3] hr hr'
  refine ⟨hr, hr', hlost, (hpulls [2, 2, 2]).2, ?_, fun d hd hcount => ?_, ?_⟩
  · obtain ⟨-, -, -, -, hlog⟩ := hruns SignatureEmitter RawSink (List Event) horderly p Event.record
      [] 9 start sink
    exact hlog
  · obtain ⟨-, hfull, -, -⟩ := hpull r' 4 d (by decide) hd
    cases he : d.ended with
    | true => rfl
    | false => exact absurd (hcount.symm.trans (hfull he)) (by decide)
  · exact (hfails lost [1, 2] _ hlost (by decide)).1 [1, 2, 2]

end RawSource

end BlockSync
