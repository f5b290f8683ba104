import ConfluentKafka.HighLevelProducer
import Mathlib.Data.Finset.Card

/-!
# The polling count

`_modifiedProduce` counts a call when it comes in, and the listener for its
delivery report counts it off. A call that ends in another way is never
counted off: the count is the number of calls under way in the runs where
every call reaches its listener, and once only.
-/

namespace ConfluentKafka
namespace HighLevelProducer

variable {ν : Type}

def State.underWay (s : State ν) (i : Nat) : Bool :=
  (s.calls i).any fun c => !c.ended

def State.inFlight (s : State ν) : Nat :=
  ((Finset.range s.count).filter fun i => s.underWay i = true).card

/-- The reference count is the number of calls under way, and the fast polling is on while there is one. -/
structure State.Counted (s : State ν) : Prop where
  count : s.polling.ref.currentValue = s.inFlight
  fast : s.polling.interval = true ↔ 0 < s.inFlight

/-- Both serializers return values, the underlying `produce` accepts the message, and a key serializer that
calls back before it returns does not find the value already serialized. -/
def Spec.smooth (spec : Spec ν) : Bool :=
  spec.valueOut.isValue && spec.keyOut.isValue && spec.answer 0 && !(spec.earlyValue && spec.earlyKey)

def smoothStep : Label ν → Bool
  | .produce spec => spec.smooth
  | .pollDisconnected => false
  | _ => true

/-! ## The counter -/

def Polling.at (n : Nat) : Polling :=
  ⟨⟨n, decide (0 < n)⟩, decide (0 < n)⟩

theorem Polling.increment_at (n : Nat) : (Polling.at n).increment = Polling.at (n + 1) := by
  cases n <;> simp [Polling.at, increment]

theorem Polling.decrement_at (n : Nat) : (Polling.at (n + 1)).decrement = Polling.at n := by
  cases n <;> simp [Polling.at, decrement]

/-! ## The calls under way -/

theorem underWay_update {s : State ν} {i j : Nat} {c : Call ν} :
    (s.update i c).underWay j = if j = i then !c.ended else s.underWay j := by
  simp only [State.underWay, State.update, Function.update_apply]
  split <;> rfl

theorem inFlight_update {s : State ν} {i : Nat} {c c' : Call ν} (hc : s.calls i = some c)
    (ho : c'.ended = c.ended) :
    (s.update i c').inFlight = s.inFlight := by
  have h : ∀ j, (s.update i c').underWay j = s.underWay j := by
    intro j
    rw [underWay_update]
    split
    · rename_i hj
      simp [State.underWay, hj, hc, ho]
    · rfl
  simp only [State.inFlight, h]
  rfl

theorem inFlight_ended {s : State ν} {i : Nat} {c c' : Call ν} (hi : i < s.count) (hc : s.calls i = some c)
    (ho : c.ended = false) (ho' : c'.ended = true) : (s.update i c').inFlight + 1 = s.inFlight := by
  have he : (Finset.range s.count).filter (fun j => (s.update i c').underWay j = true) =
      ((Finset.range s.count).filter fun j => s.underWay j = true).erase i := by
    ext j
    simp only [Finset.mem_filter, Finset.mem_erase, underWay_update]
    by_cases hj : j = i <;> simp [hj, ho']
  have hm : i ∈ (Finset.range s.count).filter fun j => s.underWay j = true :=
    Finset.mem_filter.mpr ⟨Finset.mem_range.mpr hi, by simp [State.underWay, hc, ho]⟩
  calc (s.update i c').inFlight + 1
      = (((Finset.range s.count).filter fun j => s.underWay j = true).erase i).card + 1 := by
        rw [← he]
        rfl
    _ = s.inFlight := Finset.card_erase_add_one hm

theorem inFlight_produce {s : State ν} {c : Call ν} {p : Polling} (ho : c.ended = false) :
    State.inFlight ⟨s.count + 1, Function.update s.calls s.count (some c), p⟩ = s.inFlight + 1 := by
  have hu : ∀ j, State.underWay ⟨s.count + 1, Function.update s.calls s.count (some c), p⟩ j =
      if j = s.count then true else s.underWay j := by
    intro j
    simp only [State.underWay, Function.update_apply]
    split <;> simp [ho]
  have he : (Finset.range (s.count + 1)).filter
      (fun j => State.underWay ⟨s.count + 1, Function.update s.calls s.count (some c), p⟩ j = true) =
      insert s.count ((Finset.range s.count).filter fun j => s.underWay j = true) := by
    ext j
    simp only [Finset.mem_filter, Finset.mem_insert, Finset.mem_range, hu]
    by_cases hj : j = s.count
    · simp [hj]
    · simp only [hj, if_false, false_or]
      constructor <;> rintro ⟨h, h'⟩ <;> exact ⟨by omega, h'⟩
  unfold State.inFlight
  rw [he, Finset.card_insert_of_notMem (by simp)]

/-! ## The invariant -/

def Call.Smooth (c : Call ν) : Prop :=
  c.spec.smooth = true ∧ (c.Waiting ∨ c.Sent)

structure PollInv (s : State ν) : Prop where
  smooth : s.All Call.Smooth
  used : ∀ i c, s.calls i = some c → i < s.count
  polling : s.polling = Polling.at s.inFlight

theorem smooth_parts {spec : Spec ν} (h : spec.smooth = true) :
    spec.valueOut.isValue = true ∧ spec.keyOut.isValue = true ∧ spec.answer 0 = true ∧
      ¬(spec.earlyValue = true ∧ spec.earlyKey = true) := by
  simp only [Spec.smooth, Bool.and_eq_true, Bool.not_eq_true'] at h
  obtain ⟨⟨⟨hv, hk⟩, ha⟩, he⟩ := h
  refine ⟨hv, hk, ha, ?_⟩
  rintro ⟨h₁, h₂⟩
  simp [h₁, h₂] at he

theorem thrownBy_of_isValue {o : Out ν} {style : Style} (h : o.isValue = true) : o.thrownBy style = false := by
  cases o with
  | value v => rfl
  | failed => simp [Out.isValue] at h
  | throws => simp [Out.isValue] at h

theorem smooth_modifiedProduce {spec : Spec ν} (h : spec.smooth = true) :
    (Call.modifiedProduce spec).Smooth ∧ (Call.modifiedProduce spec).ended = false := by
  obtain ⟨hv, hk, ha, he⟩ := smooth_parts h
  have hs : (Call.modifiedProduce spec).spec = spec := Call.modifiedProduce_spec spec
  rcases Call.modifiedProduce_returns (fun h' => he ⟨h'.1, h'.2.1⟩) (thrownBy_of_isValue hv)
    (thrownBy_of_isValue hk)
    with ⟨hw, -⟩ | hj | ⟨hf, -⟩
  · exact ⟨⟨by rwa [hs], .inl hw⟩, hw.uncalled.2.2⟩
  · exact ⟨⟨by rwa [hs], .inr hj.toSent⟩, hj.accepted (by rwa [hs])⟩
  · simp [hv, hk] at hf

theorem Call.Smooth.completeValue {c : Call ν} (h : c.Smooth) (hp : c.pendingValue = true) :
    c.completeValue.Smooth ∧ c.completeValue.ended = c.ended := by
  obtain ⟨hs, hw | hs'⟩ := h
  · obtain ⟨hv, -, ha, -⟩ := smooth_parts hs
    rw [hw.uncalled.2.2]
    rcases hw.completeValue with ⟨hw', -⟩ | hj | ⟨hf, -⟩
    · exact ⟨⟨by simpa using hs, .inl hw'⟩, hw'.uncalled.2.2⟩
    · exact ⟨⟨by simpa using hs, .inr hj.toSent⟩, hj.accepted (by simpa using ha)⟩
    · simp [hv] at hf
  · simp [hs'.settled.1] at hp

theorem Call.Smooth.completeKey {c : Call ν} (h : c.Smooth) (hp : c.pendingKey = true) :
    c.completeKey.Smooth ∧ c.completeKey.ended = c.ended := by
  obtain ⟨hs, hw | hs'⟩ := h
  · obtain ⟨-, hk, ha, -⟩ := smooth_parts hs
    rw [hw.uncalled.2.2]
    rcases hw.completeKey with ⟨hw', -⟩ | hj | ⟨hf, -⟩
    · exact ⟨⟨by simpa using hs, .inl hw'⟩, hw'.uncalled.2.2⟩
    · exact ⟨⟨by simpa using hs, .inr hj.toSent⟩, hj.accepted (by simpa using ha)⟩
    · simp [hk] at hf
  · simp [hs'.settled.2] at hp

theorem Call.Smooth.sent {c : Call ν} (h : c.Smooth) (hh : c.undelivered > 0 ∨ c.reported > 0) : c.Sent := by
  obtain ⟨-, hw | hs⟩ := h
  · obtain ⟨-, hu, hr⟩ := hw.unheard
    omega
  · exact hs

theorem Call.Smooth.unthrown {c : Call ν} (h : c.Smooth) : c.thrown = false :=
  h.2.elim (fun hw => hw.unthrown) fun hs => hs.unthrown

theorem PollInv.used_update {s : State ν} {i : Nat} {c c' : Call ν} (h : PollInv s) (hc : s.calls i = some c) :
    ∀ j d, (s.update i c').calls j = some d → j < s.count := by
  intro j d hd
  simp only [State.update, Function.update_apply] at hd
  split at hd
  · rename_i hj
    exact hj ▸ h.used i c hc
  · exact h.used j d hd

theorem PollInv.update {s : State ν} {i : Nat} {c c' : Call ν} (h : PollInv s) (hc : s.calls i = some c)
    (hs : c'.Smooth) (ho : c'.ended = c.ended) : PollInv (s.update i c') := by
  refine ⟨h.smooth.update hs, h.used_update hc, ?_⟩
  rw [inFlight_update hc ho]
  exact h.polling

theorem pollInv_produce {s : State ν} {spec : Spec ν} (h : PollInv s) (hs : spec.smooth = true) :
    PollInv ⟨s.count + 1, Function.update s.calls s.count (some (Call.modifiedProduce spec)),
      s.polling.increment⟩ := by
  obtain ⟨hc, ho⟩ := smooth_modifiedProduce hs
  refine ⟨h.smooth.update hc, ?_, ?_⟩
  · intro j d hd
    simp only [Function.update_apply] at hd
    split at hd
    · rename_i hj
      exact hj ▸ Nat.lt_succ_self _
    · exact Nat.lt_succ_of_lt (h.used j d hd)
  · rw [inFlight_produce ho, ← Polling.increment_at, ← h.polling]

/-- The report finds one listener, and the call has not been counted off. -/
theorem pollInv_report {s : State ν} {i : Nat} {c : Call ν} (h : PollInv s) (hc : s.calls i = some c)
    (hu : c.undelivered > 0) :
    PollInv { s.update i c.report with polling := s.polling.decrements c.listeners } := by
  have hs := h.smooth i c hc
  have hsent := hs.sent (.inl hu)
  have hl : c.listeners = 1 := by
    have := hsent.heard
    have := hsent.one
    omega
  have ho : c.ended = false := by simpa [hl] using hsent.ended
  refine ⟨h.smooth.update ⟨hs.1, .inr (hsent.report hu)⟩, h.used_update hc, ?_⟩
  have hf := inFlight_ended (h.used i c hc) hc ho (rfl : c.report.ended = true)
  show s.polling.decrements c.listeners = Polling.at (s.update i c.report).inFlight
  rw [hl, h.polling, ← hf]
  exact Polling.decrement_at _

theorem pollInv_step {s s' : State ν} {e : Label ν} (h : PollInv s) (hc : smoothStep e = true)
    (hs : step s e = some s') : PollInv s' := by
  cases step_moves hs with
  | produce spec => exact pollInv_produce h hc
  | completeValue hi hp =>
    obtain ⟨hs, ho⟩ := (h.smooth _ _ hi).completeValue hp
    exact h.update hi hs ho
  | completeKey hi hp =>
    obtain ⟨hs, ho⟩ := (h.smooth _ _ hi).completeKey hp
    exact h.update hi hs ho
  | thrownImmediate hi ht => simp [(h.smooth _ _ hi).unthrown] at ht
  | report hi hu => exact pollInv_report h hi hu
  | reportImmediate hi hr =>
    have hs := h.smooth _ _ hi
    exact h.update hi ⟨hs.1, .inr ((hs.sent (.inr hr)).reportImmediate hr)⟩ rfl
  | pollDisconnected _ => simp [smoothStep] at hc

/-- In the runs whose calls all reach their listener once, the count is the number of calls under way. -/
theorem polling_counts_calls_under_way {es : List (Label ν)} {s : State ν}
    (hr : (lts ν).RunWhere (fun _ e => smoothStep e = true) es s) : s.Counted := by
  have h : PollInv s := by
    refine hr.inv ⟨fun i c hc => (nomatch hc), fun i c hc => (nomatch hc), rfl⟩ ?_
    exact fun s e s' h hc hs => pollInv_step h hc hs
  exact ⟨by simp [h.polling, Polling.at], by simp [h.polling, Polling.at]⟩

theorem polling_counts_one_of_two :
    ∃ s : State Nat, s.count = 2 ∧ s.inFlight = 1 ∧ s.polling.ref.currentValue = 1 ∧ s.Counted := by
  let spec : Spec Nat :=
    ⟨⟨false, .returns, fun _ => .value 7⟩, ⟨false, .promises, fun _ => .value 8⟩, true, false, [], fun _ => true⟩
  have hr := Lts.RunWhere.of_exec (M := lts Nat) (C := fun _ e => smoothStep e) .nil
    (show (lts Nat).exec (fun _ e => smoothStep e) (lts Nat).init
      [.produce spec, .produce spec, .complete 1 .key, .report 1] = some _ from rfl)
  exact ⟨_, rfl, rfl, rfl, polling_counts_calls_under_way hr⟩

/-- A message that is refused is never counted off. -/
theorem not_polling_counts_refused :
    ¬ ∀ (es : List (Label Nat)) (s : State Nat), (lts Nat).Run es s → s.Counted := by
  intro h
  let spec : Spec Nat :=
    ⟨⟨false, .returns, fun _ => .value 7⟩, ⟨false, .returns, fun _ => .value 8⟩, true, false, [], fun _ => false⟩
  have hr := Lts.Run.of_exec (M := lts Nat)
    (show (lts Nat).exec (fun _ _ => true) (lts Nat).init [.produce spec] = some _ from rfl)
  exact absurd (h _ _ hr).count (by decide)

end HighLevelProducer
end ConfluentKafka
