import BlockSync.Proofs.Machine.Buffer
import BlockSync.Proofs.Queue

/-!
# Staging

Output waits where there is no room for it, and a field is kept where it has not arrived as a whole.
Neither loses a byte or changes their order, whatever the queues at the other side are like.

* `Backlog.Request`, `Backlog.serve`: what is asked of output that waits, in any order;
* `Backlog.Ledger`, `Backlog.after`: what had to wait and what queues were given, and what waits after
  some requests;
* **`Backlog.Ledger.Balances.serve`**: every request keeps the ledger in balance;
* `Outbox.serve`, `Backlog.outbox_after`: on the machine it goes the same way;
* `Field.after`, **`Field.after_eq`**: of a field there is what has arrived, as far as it belongs to
  the field; `Field.fold_gather`: the same on the machine;
* **`Staging.lossless`**: all this of any requests and any queues.
-/

namespace BlockSync

namespace Backlog

/-! ## Output that waits -/

/-- What is asked of output that waits. -/
inductive Request where
  /-- More output has to wait. -/
  | append (bs : Bytes)
  /-- As much is passed on as a queue has room for. -/
  | pour (q : Queue)

/-- What waits after a request. -/
def serve (b : Backlog) : Request → Backlog
  | .append bs => b.append bs
  | .pour q => (b.pour q).1

/-- What has become of output. -/
structure Ledger where
  /-- All that had to wait. -/
  queued : Bytes
  /-- What queues were given. -/
  given : Bytes
deriving DecidableEq, Repr

namespace Ledger

def empty : Ledger := ⟨[], []⟩

/-- A request is entered before it is served. What a queue is given is what it holds then behind what it
held before. -/
def enter (l : Ledger) (b : Backlog) : Request → Ledger
  | .append bs => { l with queued := l.queued ++ bs }
  | .pour q => { l with given := l.given ++ (b.pour q).2.content.drop q.content.length }

/-- What was not given away still waits. -/
structure Balances (l : Ledger) (b : Backlog) : Prop where
  queued : l.given ++ b.pending = l.queued
  size_le : b.bytes.size ≤ l.queued.length

end Ledger

/-- What waits after some requests, and the ledger. -/
def after (requests : List Request) : Backlog × Ledger :=
  requests.foldl (fun s request => (s.1.serve request, s.2.enter s.1 request)) (empty, .empty)

variable {b : Backlog}

theorem given_pour (b : Backlog) (q : Queue) :
    (b.pour q).2.content.drop q.content.length = b.pending.take q.room := by
  rw [(b.pour_eq q).1, List.drop_left]

theorem size_drop_le (b : Backlog) (count : Nat) : (b.drop count).bytes.size ≤ b.bytes.size := by
  unfold drop
  split
  · exact Nat.le_refl _
  · exact Nat.zero_le _

/-- **Every request keeps the ledger in balance.** -/
theorem Ledger.Balances.serve {l : Ledger} (h : l.Balances b) (request : Request) :
    (l.enter b request).Balances (b.serve request) := by
  obtain ⟨hqueued, hsize⟩ := h
  cases request with
  | append bs =>
    refine ⟨?_, ?_⟩
    · change l.given ++ (b.append bs).pending = l.queued ++ bs
      rw [pending_append, ← List.append_assoc, hqueued]
    · change (b.bytes ++ bs).size ≤ (l.queued ++ bs).length
      rw [size_append_bytes, List.length_append]
      exact Nat.add_le_add_right hsize _
  | pour q =>
    refine ⟨?_, Nat.le_trans (size_drop_le b _) hsize⟩
    change l.given ++ (b.pour q).2.content.drop q.content.length ++ (b.pour q).1.pending = l.queued
    rw [given_pour, (b.pour_eq q).2, List.append_assoc, List.take_append_drop, hqueued]

theorem after_concat (requests : List Request) (request : Request) :
    after (requests ++ [request]) =
      ((after requests).1.serve request, (after requests).2.enter (after requests).1 request) := by
  rw [after, List.foldl_append]
  rfl

theorem balances_after (requests : List Request) :
    (after requests).2.Balances (after requests).1 := by
  induction requests using List.reverseRecOn with
  | nil => exact ⟨pending_empty, Nat.le_refl 0⟩
  | append_singleton requests request ih =>
    rw [after_concat]
    exact ih.serve request

end Backlog

/-! ## Output that waits, on the machine -/

/-- What waits after a request. -/
def Outbox.serve (o : Outbox) : Backlog.Request → Machine Outbox
  | .append bs => return o.append bs
  | .pour q => do return (← o.drainInto q.buffer).1

namespace Backlog

open Machine

/-- The queue that is asked for is one of the machine. -/
def Request.Fits : Request → Prop
  | .append _ => True
  | .pour q => q.capacity < 2 ^ 64

instance : DecidablePred Request.Fits
  | .append _ => .isTrue trivial
  | .pour q => inferInstanceAs (Decidable (q.capacity < 2 ^ 64))

theorem outbox_pour {b : Backlog} (hb : b.bytes.size < 2 ^ 64) {q : Queue} (hq : q.capacity < 2 ^ 64) :
    b.outbox.drainInto q.buffer = .ok ((b.pour q).1.outbox, (b.pour q).2.buffer) := by
  have hs := b.sent_le
  have hl : b.length = b.bytes.size - b.sent := rfl
  exact outbox_drainInto hq (by omega)

theorem outbox_serve {b : Backlog} (hb : b.bytes.size < 2 ^ 64) {request : Request} (h : request.Fits) :
    b.outbox.serve request = .ok (b.serve request).outbox := by
  cases request with
  | append bs => rfl
  | pour q =>
    simp only [Outbox.serve, outbox_pour hb h, bind_ok]
    rfl

theorem length_queued_le (requests : List Request) (request : Request) :
    (after requests).2.queued.length ≤ (after (requests ++ [request])).2.queued.length := by
  rw [after_concat]
  cases request with
  | append bs =>
    change _ ≤ (_ ++ bs : Bytes).length
    rw [List.length_append]
    exact Nat.le_add_right _ _
  | pour q => exact Nat.le_refl _

/-- Nothing traps as long as the length of all output fits a word. -/
theorem outbox_after {requests : List Request} (h : ∀ r ∈ requests, r.Fits)
    (hl : (after requests).2.queued.length < 2 ^ 64) :
    requests.foldlM Outbox.serve empty.outbox = .ok (after requests).1.outbox := by
  induction requests using List.reverseRecOn with
  | nil => rfl
  | append_singleton requests request ih =>
    have hbefore := Nat.lt_of_le_of_lt (length_queued_le requests request) hl
    have hsize := Nat.lt_of_le_of_lt (balances_after requests).size_le hbefore
    rw [List.foldlM_append, ih (fun r hr => h r (List.mem_append_left _ hr)) hbefore, bind_ok,
      List.foldlM_cons, outbox_serve hsize (h _ List.mem_concat_self), after_concat]
    rfl

end Backlog

/-! ## Fields -/

/-- Fill a field from a buffer, whether that completes it or not. -/
def Buffer.gather (length : Nat) (field : Bytes) (q : Queue) : Machine Bytes := do
  return (← q.buffer.fill field length).2.1

namespace Field

open Machine

/-- A field of `n` bytes after it was asked for from some queues, one after another. -/
def after (n : Nat) (queues : List Queue) : Field :=
  queues.foldl (fun f q => (f.collect q n).2.1) .empty

theorem after_concat (n : Nat) (queues : List Queue) (q : Queue) :
    after n (queues ++ [q]) = ((after n queues).collect q n).2.1 := by
  rw [after, List.foldl_append]
  rfl

/-- **Of a field there is what has arrived, as far as it belongs to the field.** -/
theorem after_eq (n : Nat) (queues : List Queue) :
    after n queues = ⟨(queues.flatMap Queue.content).take n⟩ := by
  induction queues using List.reverseRecOn with
  | nil => exact congrArg Field.mk List.take_nil.symm
  | append_singleton queues q ih =>
    have hmissing : n - min n (queues.flatMap Queue.content).length =
        n - (queues.flatMap Queue.content).length := by omega
    rw [after_concat, ih, collect_eq (List.length_take_le _ _), List.flatMap_append,
      List.flatMap_singleton, List.take_append, List.take_append, List.take_take, Nat.min_self,
      List.length_take, hmissing]

theorem length_after_le (n : Nat) (queues : List Queue) : (after n queues).bytes.length ≤ n := by
  rw [after_eq]
  exact List.length_take_le _ _

/-- On the machine it goes the same way. -/
theorem fold_gather {n : Nat} {queues : List Queue} (h : ∀ q ∈ queues, q.capacity < 2 ^ 64) :
    queues.foldlM (Buffer.gather n) [] = .ok (after n queues).bytes := by
  induction queues using List.reverseRecOn with
  | nil => rfl
  | append_singleton queues q ih =>
    rw [List.foldlM_append, ih fun r hr => h r (List.mem_append_left _ hr), bind_ok, List.foldlM_cons,
      Buffer.gather, Queue.buffer_fill (h q List.mem_concat_self), after_concat]
    rfl

/-- The field is given just when all of it is there. -/
theorem collect_eq_some_iff {f : Field} {q : Queue} {n : Nat} {bs : Bytes} :
    (f.collect q n).1 = some bs ↔ (f.collect q n).2.1.bytes = bs ∧ bs.length = n := by
  simp only [collect, Option.ite_none_right_eq_some, Option.some.injEq]
  constructor
  · rintro ⟨hl, rfl⟩
    exact ⟨rfl, hl⟩
  · rintro ⟨rfl, hl⟩
    exact ⟨hl, rfl⟩

/-- What the field gets has left the front of the queue, and it is not more than was missing. -/
theorem collect_takes (f : Field) (q : Queue) (n : Nat) :
    ∃ taken, q.content = taken ++ (f.collect q n).2.2.content ∧
      taken.length ≤ n - f.bytes.length ∧ (f.collect q n).2.1.bytes = f.bytes ++ taken := by
  refine ⟨q.front (min (n - f.bytes.length) q.length), ?_, ?_, rfl⟩
  · change _ = _ ++ (q.drop _).content
    rw [Queue.front_eq, Queue.content_drop, List.take_append_drop]
  · rw [Queue.length_front]
    omega

/-- A field that is not given has taken all that there was. -/
theorem content_of_collect_none {f : Field} {q : Queue} {n : Nat} (hf : f.bytes.length ≤ n)
    (h : (f.collect q n).1 = none) : (f.collect q n).2.2.content = [] := by
  rw [collect_eq hf] at h ⊢
  by_cases hn : n ≤ (f.bytes ++ q.content).length
  · rw [if_pos hn] at h
    cases h
  · rw [List.length_append] at hn
    rw [Queue.content_drop]
    exact List.drop_of_length_le (by omega)

end Field

/-! ## Both -/

namespace Staging

/-- **Staging loses and reorders nothing.** Whatever has been asked of output that waits, and whatever
room the queues had, what they were given and what still waits is all output, in order; nothing waits
just if all was given; and the next queue gets as much as it has room for. A field that is asked for
from any queues, one after another, consists of the first bytes of all that they held. It is given
just when all of it is there, takes no more than it lacks, and leaves nothing if it lacks more. On the
machine it goes the same way, and nothing traps. -/
theorem lossless :
    (∀ (requests : List Backlog.Request) (q : Queue),
      let b := (Backlog.after requests).1
      let l := (Backlog.after requests).2
      l.given ++ b.pending = l.queued ∧
      (b.isEmpty = true ↔ l.given = l.queued) ∧
      ((b.pour q).2.content = q.content ++ b.pending.take q.room ∧
        (b.pour q).1.pending = b.pending.drop q.room ∧
        (b.pour q).2.content.length = q.content.length + min q.room b.pending.length) ∧
      ((∀ r ∈ requests, r.Fits) → q.capacity < 2 ^ 64 → l.queued.length < 2 ^ 64 →
        requests.foldlM Outbox.serve Backlog.empty.outbox = .ok b.outbox ∧
        b.outbox.isEmpty = b.isEmpty ∧
        b.outbox.drainInto q.buffer = .ok ((b.pour q).1.outbox, (b.pour q).2.buffer))) ∧
    (∀ (n : Nat) (queues : List Queue) (q q' : Queue) (f' : Field) (found : Option Bytes),
      let f := Field.after n queues
      f.collect q n = (found, f', q') →
      f'.bytes = (queues.flatMap Queue.content ++ q.content).take n ∧
      (∀ bs, found = some bs ↔ f'.bytes = bs ∧ bs.length = n) ∧
      (∃ taken, q.content = taken ++ q'.content ∧ taken.length ≤ n - f.bytes.length ∧
        f'.bytes = f.bytes ++ taken) ∧
      (found = none → q'.content = []) ∧
      ((∀ r ∈ queues, r.capacity < 2 ^ 64) → q.capacity < 2 ^ 64 →
        queues.foldlM (Buffer.gather n) [] = .ok f.bytes ∧
        q.buffer.fill f.bytes n = .ok (found, f'.bytes, q'.buffer))) := by
  refine ⟨fun requests q => ?_, fun n queues q q' f' found => ?_⟩
  · intro b l
    have hb := Backlog.balances_after requests
    obtain ⟨hgiven, hleft⟩ := b.pour_eq q
    have hempty : b.isEmpty = true ↔ l.given = l.queued := by
      rw [Backlog.isEmpty_iff, ← hb.queued, List.self_eq_append_right]
    refine ⟨hb.queued, hempty, ⟨hgiven, hleft, ?_⟩, fun hfits hq hl => ?_⟩
    · rw [hgiven, List.length_append, List.length_take]
    · exact ⟨Backlog.outbox_after hfits hl, b.isEmpty_outbox,
        Backlog.outbox_pour (Nat.lt_of_le_of_lt hb.size_le hl) hq⟩
  · intro f h
    have hnext := Field.after_eq n (queues ++ [q])
    rw [Field.after_concat, List.flatMap_append, List.flatMap_singleton] at hnext
    have hfound := @Field.collect_eq_some_iff f q n
    have htakes := f.collect_takes q n
    have hnone := Field.content_of_collect_none (q := q) (Field.length_after_le n queues)
    rw [h] at hnext hfound htakes hnone
    refine ⟨congrArg Field.bytes hnext, fun bs => hfound, htakes, hnone, fun hqueues hq => ?_⟩
    have hfill := Queue.buffer_fill hq f n
    rw [h] at hfill
    exact ⟨Field.fold_gather hqueues, hfill⟩

/-- Four bytes wait for two queues that have not room for all of them, and a field of four bytes begins
in a queue and ends in the next one, which holds more. -/
theorem lossless_split :
    let requests : List Backlog.Request := [.append [1, 2, 3], .pour (.ofCapacity 2), .append [4]]
    let b := (Backlog.after requests).1
    let q := (Queue.ofCapacity 8).append [1, 2, 9]
    let next := (Field.after 4 [(Queue.ofCapacity 2).append [0, 0]]).collect q 4
    (Backlog.after requests).2 = ⟨[1, 2, 3, 4], [1, 2]⟩ ∧ b.pending = [3, 4] ∧ b.isEmpty = false ∧
      (b.pour (.ofCapacity 1)).2.content = [3] ∧ (b.pour (.ofCapacity 1)).1.pending = [4] ∧
      requests.foldlM Outbox.serve Backlog.empty.outbox = .ok b.outbox ∧
      next.1 = some [0, 0, 1, 2] ∧ next.2.2.content = [9] ∧
      q.buffer.fill [0, 0] 4 = .ok (some [0, 0, 1, 2], [0, 0, 1, 2], next.2.2.buffer) := by
  intro requests b q next
  have hledger : (Backlog.after requests).2 = ⟨[1, 2, 3, 4], [1, 2]⟩ := by decide
  have hfield : (Field.after 4 [(Queue.ofCapacity 2).append [0, 0]]).bytes = [0, 0] := by decide
  obtain ⟨hqueued, hempty, ⟨hgiven, hleft, -⟩, hmachine⟩ := lossless.1 requests (.ofCapacity 1)
  obtain ⟨hbytes, hfound, ⟨taken, hcontent, -, htaken⟩, -, hfill⟩ :=
    lossless.2 4 [(Queue.ofCapacity 2).append [0, 0]] q next.2.2 next.2.1 next.1 rfl
  rw [hledger] at hqueued hempty
  have hpending : b.pending = [3, 4] := List.append_cancel_left hqueued
  have hall : next.2.1.bytes = [0, 0, 1, 2] := hbytes
  have hsome : next.1 = some [0, 0, 1, 2] := (hfound _).mpr ⟨hall, rfl⟩
  rw [hall, hfield] at htaken
  obtain rfl : [1, 2] = taken := by simpa using htaken
  refine ⟨hledger, hpending, Bool.eq_false_iff.mpr fun h => ?_, ?_, ?_, ?_, hsome, ?_, ?_⟩
  · cases hempty.mp h
  · rw [hgiven, hpending]
    rfl
  · rw [hleft, hpending]
    rfl
  · exact (hmachine (by decide) (by decide) (by rw [hledger]; decide)).1
  · have hq : q.content = [1, 2] ++ [9] := by decide
    exact (List.append_cancel_left (hq.symm.trans hcontent)).symm
  · have hmade := (hfill (by decide) (by decide)).2
    rw [hfield, hsome, hall] at hmade
    exact hmade

end Staging

end BlockSync
