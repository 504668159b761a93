import BlockSync.Proofs.Exchange.Whole
import BlockSync.Proofs.Machine.Params
import BlockSync.Proofs.Signature.Emitting

/-!
# Settings that are accepted

Settings are checked where an exchange is made, parameters where a signature is begun, and a capacity
where a pipe is made. Whatever passes the first of these checks passes the others.

* `refuse`, `refuse_append`: checks after each other, of which the first that fails decides;
* `Settings.faults`: all that is wrong with settings, in order;
* `Exchange.ofSettings_eq`: settings are refused for the first of their faults;
* `Exchange.start_of_ofSettings`: accepted settings serve for a file of any size;
* **`Settings.usable`**: parameters for a size always pass their check, and so do settings further on
  once they are accepted.
-/

namespace BlockSync

/-! ## Faults -/

/-- The first fault is the one that is reported. -/
def refuse : List TransferError → Except TransferError Unit
  | [] => .ok ()
  | e :: _ => .error e

theorem refuse_append (es fs : List TransferError) :
    refuse (es ++ fs) = (do refuse es; refuse fs) := by
  cases es <;> rfl

theorem refuse_eq_error_iff (es : List TransferError) (e : TransferError) :
    refuse es = .error e ↔ es.head? = some e := by
  cases es <;> simp [refuse]

/-- The faults of a length that may be left open. -/
def lengthFaults (fault : UInt32 → TransferError) (least most : Nat) (given : Option UInt32) :
    List TransferError :=
  (given.toList.filter fun n => n.toNat < least ∨ most < n.toNat).map fault

/-- All that is wrong with settings, in the order in which they are looked at. -/
def Settings.faults (s : Settings) : List TransferError :=
  (if 1 ≤ s.capacity ∧ s.capacity ≤ 32767 then []
    else [.argument (.capacityOutOfRange s.capacity)]) ++
  lengthFaults .blockLength 64 65536 s.blockLength ++
  lengthFaults .strongLength 4 32 s.strongLength

/-- A length that is in its range, or left open, has no faults. -/
theorem forM_range (fault : UInt32 → TransferError) (least most : UInt32) (given : Option UInt32) :
    given.forM (fun n => if least ≤ n ∧ n ≤ most then .ok () else .error (fault n)) =
      refuse (lengthFaults fault least.toNat most.toNat given) := by
  cases given with
  | none => rfl
  | some n =>
    change (if least ≤ n ∧ n ≤ most then Except.ok () else .error (fault n)) = _
    rw [lengthFaults, Option.toList_some]
    have hrange : (least ≤ n ∧ n ≤ most) ↔ ¬ (n.toNat < least.toNat ∨ most.toNat < n.toNat) := by
      rw [UInt32.le_iff_toNat_le, UInt32.le_iff_toNat_le, not_or, Nat.not_lt, Nat.not_lt]
    by_cases h : least ≤ n ∧ n ≤ most
    · rw [if_pos h, List.filter_cons_of_neg (by simpa only [decide_eq_true_eq] using hrange.mp h)]
      rfl
    · rw [if_neg h, List.filter_cons_of_pos
        (by simpa only [decide_eq_true_eq] using Decidable.not_not.mp (mt hrange.mpr h))]
      rfl

namespace Exchange

/-! ## Acceptance -/

/-- **Settings are refused for the first of their faults**, and accepted when they have none. -/
theorem ofSettings_eq (s : Settings) :
    (ofSettings s).map (fun x => (x.settings, x.pipe.capacity)) =
      (refuse s.faults).map fun _ => (s, s.capacity) := by
  have hblock : s.blockLength.forM checkBlockLength =
      refuse (lengthFaults .blockLength 64 65536 s.blockLength) :=
    forM_range .blockLength minBlockLength maxBlockLength s.blockLength
  have hstrong : s.strongLength.forM checkStrongLength =
      refuse (lengthFaults .strongLength 4 32 s.strongLength) :=
    forM_range .strongLength minStrongLength maxStrongLength s.strongLength
  rw [ofSettings, hblock, hstrong, Settings.faults, List.append_assoc, refuse_append, refuse_append]
  by_cases hc : 1 ≤ s.capacity ∧ s.capacity ≤ 32767
  · have hpipe : Pipe.ofCapacity s.capacity = .ok ⟨s.capacity, hc.1, hc.2⟩ := dif_pos hc
    rw [if_pos hc, hpipe]
    cases refuse (lengthFaults .blockLength 64 65536 s.blockLength) with
    | error e => rfl
    | ok => cases refuse (lengthFaults .strongLength 4 32 s.strongLength) <;> rfl
  · have hpipe : Pipe.ofCapacity s.capacity = .error (.argument (.capacityOutOfRange s.capacity)) :=
      dif_neg hc
    rw [if_neg hc, hpipe]
    rfl

theorem ofSettings_error_iff (s : Settings) (e : TransferError) :
    ofSettings s = .error e ↔ s.faults.head? = some e := by
  have h := ofSettings_eq s
  rw [← refuse_eq_error_iff]
  cases hx : ofSettings s <;> cases hf : refuse s.faults <;> rw [hx, hf] at h <;>
    simp_all [Except.map]

/-- Accepted settings give their capacity to the pipe, and for a file of any size they give
parameters, with which its signature can be begun. -/
theorem start_of_ofSettings {s : Settings} {x : Exchange} (h : ofSettings s = .ok x) (size : Nat) :
    x.settings = s ∧ Pipe.ofCapacity s.capacity = .ok x.pipe ∧
      ∃ p e, x.settings.params size = .ok p ∧ p.check = .ok () ∧
        p.blockLength = s.blockLength.getD (Params.forSize size).blockLength ∧
        p.strongLength = s.strongLength.getD (Params.forSize size).strongLength ∧
        SignatureEmitter.start p = .ok e := by
  obtain ⟨p, hp, hv⟩ := params_spec h size
  have hsettings : x.settings = s ∧ x.pipe.capacity = s.capacity := by
    have heq := ofSettings_eq s
    rw [h] at heq
    cases hf : refuse s.faults <;> rw [hf] at heq <;> simp_all [Except.map]
  obtain ⟨rfl, hcapacity⟩ := hsettings
  obtain ⟨e, he, -⟩ := SignatureEmitter.start_spec hv
  obtain ⟨rfl, -⟩ := (Params.checked_iff ..).mp hp
  refine ⟨rfl, ?_, _, e, hp, (Params.check_iff _).mpr hv, rfl, rfl, he⟩
  rw [← hcapacity, Pipe.ofCapacity, dif_pos ⟨x.pipe.capacity_pos, x.pipe.capacity_le⟩]

end Exchange

/-! ## Parameters and settings -/

namespace Settings

/-- **What is chosen from a size can be used.** From every estimate the machine finds the square root
of a size, and with it parameters that pass their check; their block length is a multiple of 128
between 256 and 65536 that does not exceed the root unless it is 256, and it does not fall as sizes
grow. Settings that are accepted give a pipe, parameters and an emitter for a file of any size, and
those that are refused are refused for the first of their faults. -/
theorem usable (estimate size : UInt64) (s : Settings) :
    (∃ root, Machine.root estimate.toNat size.toNat = .ok root ∧ root * root ≤ size.toNat ∧
        size.toNat < (root + 1) * (root + 1)) ∧
      (Machine.recommend estimate.toNat size.toNat = .ok (Params.forSize size.toNat) ∧
        (Params.forSize size.toNat).check = .ok () ∧
        128 ∣ (Params.forSize size.toNat).blockLength.toNat ∧
        256 ≤ (Params.forSize size.toNat).blockLength.toNat ∧
        (Params.forSize size.toNat).blockLength.toNat ≤ 65536 ∧
        (Params.forSize size.toNat).blockLength.toNat ≤ max 256 (Nat.sqrt size.toNat) ∧
        ∀ larger : UInt64, size ≤ larger →
          (Params.forSize size.toNat).blockLength ≤ (Params.forSize larger.toNat).blockLength) ∧
      (∀ x, Exchange.ofSettings s = .ok x →
        x.settings = s ∧ Pipe.ofCapacity s.capacity = .ok x.pipe ∧
          ∃ p e, x.settings.params size.toNat = .ok p ∧ p.check = .ok () ∧
            p.blockLength = s.blockLength.getD (Params.forSize size.toNat).blockLength ∧
            p.strongLength = s.strongLength.getD (Params.forSize size.toNat).strongLength ∧
            SignatureEmitter.start p = .ok e) ∧
      ∀ e, Exchange.ofSettings s = .error e ↔ s.faults.head? = some e := by
  have hlen := Params.blockLength_forSize size.toNat
  have hmono : ∀ larger : UInt64, size ≤ larger →
      (Params.forSize size.toNat).blockLength ≤ (Params.forSize larger.toNat).blockLength := by
    intro larger hle
    rw [UInt32.le_iff_toNat_le, hlen, Params.blockLength_forSize]
    exact Params.blockLengthFor_mono (UInt64.le_iff_toNat_le.mp hle)
  refine ⟨⟨_, Machine.root_eq _ size.toNat_lt, sqrtFrom_spec _ _⟩,
    ⟨Machine.recommend_eq _ size.toNat_lt, (Params.check_iff _).mpr (Params.forSize_valid _), ?_⟩,
    fun x hx => Exchange.start_of_ofSettings hx _, Exchange.ofSettings_error_iff s⟩
  rw [hlen]
  exact ⟨Params.dvd_blockLengthFor _, Params.le_blockLengthFor _, (Params.blockLengthFor_mem _).2,
    Params.blockLengthFor_le _, hmono⟩

/-- The largest size, with an estimate that is too large by one; settings at the ends of their ranges;
and settings of which everything is wrong. -/
theorem usable_ends :
    Machine.root 0x100000000 0xFFFFFFFFFFFFFFFF = .ok 0xFFFFFFFF ∧
      (Params.forSize 0x10000).blockLength ≤ (Params.forSize 0xFFFFFFFFFFFFFFFF).blockLength ∧
      (∃ p e, (⟨1, some 64, some 32, true⟩ : Settings).params 0xFFFFFFFFFFFFFFFF = .ok p ∧
        p = ⟨64, 32⟩ ∧ SignatureEmitter.start p = .ok e) ∧
      Exchange.ofSettings ⟨0, some 63, some 33, true⟩ =
        .error (.argument (.capacityOutOfRange 0)) := by
  obtain ⟨⟨root, hroot, hle, hlt⟩, -, haccepted, -⟩ :=
    usable 0x100000000 0xFFFFFFFFFFFFFFFF ⟨1, some 64, some 32, true⟩
  obtain ⟨-, ⟨-, -, -, -, -, -, hmono⟩, -, hrefused⟩ :=
    usable 0 0x10000 ⟨0, some 63, some 33, true⟩
  obtain ⟨-, -, p, e, hp, -, hblock, hstrong, he⟩ :=
    haccepted ⟨⟨1, some 64, some 32, true⟩, ⟨1, by decide, by decide⟩⟩ rfl
  refine ⟨?_, hmono 0xFFFFFFFFFFFFFFFF (by decide), ⟨p, e, hp, ?_, he⟩, (hrefused _).mpr rfl⟩
  · obtain rfl : root = 0xFFFFFFFF := by
      change root * root ≤ 0xFFFFFFFFFFFFFFFF at hle
      change 0xFFFFFFFFFFFFFFFF < (root + 1) * (root + 1) at hlt
      have h₁ : root < 0x100000000 := Nat.mul_self_lt_mul_self_iff.mp (by omega)
      have h₂ : 0xFFFFFFFF < root + 1 := Nat.mul_self_lt_mul_self_iff.mp (by omega)
      omega
    exact hroot
  · obtain ⟨block, strong⟩ := p
    cases hblock
    cases hstrong
    rfl

end Settings

end BlockSync
