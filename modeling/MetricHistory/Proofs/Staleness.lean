import MetricHistory.Proofs.Session
import Mathlib.Data.List.Range
import Mathlib.Data.Nat.GCD.Basic
import Mathlib.Data.Nat.ModEq
import Mathlib.Logic.Function.Iterate

/-!
# Superseded requests

A gate compares generations and knows nothing of their order, so a request that was superseded is
wanted again once its generation comes back.  Requests are told apart here by the place at which
they were made, since two of them can carry the same ticket.

* `Gate.Call`, `Gate.Session.play`: calls by place, and a session of them.
* `Gate.ticketAt`, `Gate.play_opened`: the tickets of a session depend on the gate and on the number
  of requests only.
* `Gate.KeepsOut`: no superseded result passes.
* `Gate.Session.pass?_eq_none_iff`: a superseded result is held back unless its generation is back.
* `CyclicCounter.toNat_generation_ticketAt`: the generations of a counter that goes round.
* `Gate.staleness_spec`: when no superseded result can pass, and when the tickets of a counter that
  goes round are accepted.
-/

namespace MetricHistory

namespace Gate

/-! ### Calls by place -/

/-- A call to a gate: a new request, or the result of the request that was made at a place, where
the first request is at place zero. -/
inductive Call (α : Type) where
  | enter
  | pass (place : Nat) (result : α)
deriving DecidableEq, Repr

/-- Whether a call is a new request. -/
def Call.isEnter {α : Type} : Call α → Bool
  | enter => true
  | pass _ _ => false

/-- The number of requests among some calls. -/
def requests {α : Type} (calls : List (Call α)) : Nat :=
  calls.countP Call.isEnter

section Requests

variable {α : Type}

@[simp] theorem requests_enter_cons (calls : List (Call α)) :
    requests (.enter :: calls) = requests calls + 1 :=
  List.countP_cons_of_pos rfl

@[simp] theorem requests_pass_cons (place : Nat) (result : α) (calls : List (Call α)) :
    requests (.pass place result :: calls) = requests calls :=
  List.countP_cons_of_neg Bool.false_ne_true

@[simp] theorem requests_append (before after : List (Call α)) :
    requests (before ++ after) = requests before + requests after :=
  List.countP_append

@[simp] theorem requests_replicate (n : Nat) :
    requests (List.replicate n (Call.enter : Call α)) = n := by
  rw [requests, List.countP_replicate]
  rfl

end Requests

variable {C α : Type} [Counter C]

namespace Session

/-- The session after a new request. -/
def enter (s : Session C) : Session C :=
  { gate := s.gate.enter.2, issued := s.issued ++ [s.gate.enter.1] }

/-- The result of the request made at a place, if its ticket is accepted. -/
def pass? (s : Session C) (place : Nat) (result : α) : Option α :=
  s.issued[place]?.bind fun ticket => s.gate.pass? ticket result

/-- The session after a call. -/
def call (s : Session C) : Call α → Session C
  | .enter => s.enter
  | .pass _ _ => s

/-- The session after some calls. -/
def play (s : Session C) (calls : List (Call α)) : Session C :=
  calls.foldl call s

/-- Results leave a session as it is, so that only the number of requests counts. -/
theorem play_eq_iterate (s : Session C) (calls : List (Call α)) :
    s.play calls = enter^[requests calls] s := by
  induction calls generalizing s with
  | nil => rfl
  | cons c calls ih =>
    have hplay : s.play (c :: calls) = (s.call c).play calls := rfl
    rw [hplay, ih]
    cases c with
    | enter => rw [requests_enter_cons, Function.iterate_succ_apply, call]
    | pass place result => rw [requests_pass_cons, call]

end Session

/-- The gate after `n` requests. -/
def after (gate : Gate C) (n : Nat) : Gate C :=
  (fun g => g.enter.2)^[n] gate

/-- The ticket of the request made at place `k`. -/
def ticketAt (gate : Gate C) (k : Nat) : Ticket :=
  (gate.after k).enter.1

theorem after_succ (gate : Gate C) (n : Nat) : gate.after (n + 1) = (gate.after n).enter.2 :=
  Function.iterate_succ_apply' _ n gate

theorem enter_iterate_opened (gate : Gate C) (n : Nat) :
    Session.enter^[n] (opened gate) = ⟨gate.after n, (List.range n).map gate.ticketAt⟩ := by
  induction n with
  | zero => rfl
  | succ n ih =>
    rw [Function.iterate_succ_apply', ih, List.range_succ, List.map_append, after_succ]
    rfl

/-- The tickets of a session depend on the gate and on the number of requests only. -/
theorem play_opened (gate : Gate C) (calls : List (Call α)) :
    (opened gate).play calls =
      ⟨gate.after (requests calls), (List.range (requests calls)).map gate.ticketAt⟩ := by
  rw [Session.play_eq_iterate, enter_iterate_opened]

theorem length_issued_play (gate : Gate C) (calls : List (Call α)) :
    ((opened gate).play calls).issued.length = requests calls := by
  rw [play_opened, List.length_map, List.length_range]

theorem getElem?_issued_play (gate : Gate C) (calls : List (Call α)) {place : Nat}
    (hplace : place < requests calls) :
    ((opened gate).play calls).issued[place]? = some (gate.ticketAt place) := by
  rw [play_opened, List.getElem?_map, List.getElem?_range hplace, Option.map_some]

/-! ### Superseded results -/

/-- No result passes once a request was made after its own. -/
def KeepsOut (gate : Gate C) (calls : List (Call α)) : Prop :=
  ∀ before place result after, calls = before ++ .pass place result :: after →
    place + 1 < ((opened gate).play before).issued.length →
      ((opened gate).play before).pass? place result = none

section Lawful

variable [LawfulCounter C]

theorem latest_after_succ (gate : Gate C) (n : Nat) :
    (gate.after (n + 1)).latest = (gate.ticketAt n).generation := by
  rw [after_succ, latest_enter, ticketAt]

/-- A ticket is accepted as long as the generation is its own. -/
theorem accepts_play_iff (gate : Gate C) (calls : List (Call α)) {n : Nat}
    (hn : requests calls = n + 1) (ticket : Ticket) :
    ((opened gate).play calls).gate.accepts ticket = true ↔
      (gate.ticketAt n).generation = ticket.generation := by
  rw [play_opened, hn, accepts, latest_after_succ, beq_iff_eq]

/-- A superseded result is held back unless its generation is back. -/
theorem Session.pass?_eq_none_iff (gate : Gate C) (calls : List (Call α)) {n place : Nat}
    (hn : requests calls = n + 1) (hplace : place < n) (result : α) :
    ((opened gate).play calls).pass? place result = none ↔
      (gate.ticketAt place).generation ≠ (gate.ticketAt n).generation := by
  have hbound : place < requests calls := hn ▸ hplace.trans n.lt_succ_self
  rw [Session.pass?, getElem?_issued_play gate calls hbound, Option.bind_some, pass?_eq,
    if_congr (accepts_play_iff gate calls hn _) rfl rfl, ne_comm]
  split_ifs with heq <;> simp [heq]

/-- Requests up to place `n`, the result of the request at `place`, and then more requests. -/
def lateAttempt (place n more : Nat) (result : α) : List (Call α) :=
  List.replicate (n + 1) .enter ++ .pass place result :: List.replicate more .enter

theorem requests_lateAttempt (place n more : Nat) (result : α) :
    requests (lateAttempt place n more result) = n + 1 + more := by
  simp [lateAttempt]

/-- No superseded result passes, whatever is attempted, exactly if no generation comes twice. -/
theorem forall_keepsOut_iff [Inhabited α] (gate : Gate C) (n : Nat) :
    (∀ attempts : List (Call α), requests attempts = n → KeepsOut gate attempts) ↔
      ((List.range n).map fun k => (gate.ticketAt k).generation).Nodup := by
  rw [List.nodup_map_iff_inj_on List.nodup_range]
  simp only [List.mem_range]
  constructor
  · intro hkeeps i hi j hj hij
    -- of two places with the same generation, the later one would let the earlier one pass
    have hlate : ∀ {place m : Nat}, place < m → m < n →
        (gate.ticketAt place).generation ≠ (gate.ticketAt m).generation := by
      intro place m hplace hm
      have hkeep := hkeeps (lateAttempt place m (n - (m + 1)) default)
        (by rw [requests_lateAttempt]; omega) _ _ _ _ rfl
      rw [length_issued_play, requests_replicate] at hkeep
      exact (Session.pass?_eq_none_iff gate _ (requests_replicate _) hplace _).mp
        (hkeep (by omega))
    rcases lt_trichotomy i j with hlt | heq | hgt
    · exact absurd hij (hlate hlt hj)
    · exact heq
    · exact absurd hij.symm (hlate hgt hi)
  · rintro hinj attempts hattempts before place result after rfl hplace
    rw [length_issued_play] at hplace
    rw [requests_append] at hattempts
    obtain ⟨m, hm⟩ : ∃ m, requests before = m + 1 := ⟨requests before - 1, by omega⟩
    rw [Session.pass?_eq_none_iff gate before hm (by omega)]
    intro hgeneration
    have := hinj place (by omega) m (by omega) hgeneration
    omega

end Lawful

end Gate

/-! ### A counter that goes round -/

namespace CyclicCounter

theorem next_iterate_step (c : CyclicCounter) (n : Nat) : (next^[n] c).step = c.step := by
  induction n with
  | zero => rfl
  | succ n ih => rwa [Function.iterate_succ_apply']

theorem next_iterate_modulus (c : CyclicCounter) (n : Nat) :
    (next^[n] c).modulus = c.modulus := by
  induction n with
  | zero => rfl
  | succ n ih => rwa [Function.iterate_succ_apply']

theorem toNat_value_next (c : CyclicCounter) (hmodulus : 0 < c.modulus) :
    c.next.value.toNat = (c.value.toNat + c.step.toNat) % c.modulus.toNat := by
  have hlt : (c.value.toNat + c.step.toNat) % c.modulus.toNat < c.modulus.toNat :=
    Nat.mod_lt _ (UInt64.lt_iff_toNat_lt.mp hmodulus)
  exact UInt64.toNat_ofNat_of_lt (hlt.trans c.modulus.toNat_lt)

/-- The value of the counter lies that many steps behind its first one. -/
theorem toNat_value_next_iterate (c : CyclicCounter) (hmodulus : 0 < c.modulus) (n : Nat) :
    (next^[n + 1] c).value.toNat =
      (c.value.toNat + (n + 1) * c.step.toNat) % c.modulus.toNat := by
  induction n with
  | zero => rw [Nat.zero_add, Nat.one_mul]; exact toNat_value_next c hmodulus
  | succ n ih =>
    rw [Function.iterate_succ_apply', toNat_value_next _ (by rwa [next_iterate_modulus]), ih,
      next_iterate_step, next_iterate_modulus, Nat.mod_add_mod, Nat.add_assoc, ← Nat.succ_mul]

theorem after_eq (c : CyclicCounter) (n : Nat) :
    (Gate.mk c).after n = ⟨next^[n] c⟩ := by
  induction n with
  | zero => rfl
  | succ n ih => rw [Gate.after_succ, ih, Function.iterate_succ_apply']; rfl

theorem toNat_generation_ticketAt (c : CyclicCounter) (hmodulus : 0 < c.modulus) (k : Nat) :
    ((Gate.mk c).ticketAt k).generation.toNat =
      (c.value.toNat + (k + 1) * c.step.toNat) % c.modulus.toNat := by
  rw [← toNat_value_next_iterate c hmodulus, Function.iterate_succ_apply', Gate.ticketAt, after_eq]
  rfl

/-- Steps lead round a whole number of times exactly if the period divides their number. -/
theorem div_gcd_dvd_iff {step modulus d : Nat} (hmodulus : 0 < modulus) :
    modulus / Nat.gcd step modulus ∣ d ↔ modulus ∣ d * step := by
  rw [Nat.div_dvd_iff_dvd_mul (Nat.gcd_dvd_right step modulus)
    (Nat.gcd_pos_of_pos_right step hmodulus), Nat.gcd_comm, Nat.dvd_gcd_mul_iff_dvd_mul,
    Nat.mul_comm]

/-- Two places carry the same generation exactly if they lie whole periods apart. -/
theorem generation_ticketAt_eq_iff (c : CyclicCounter) (hmodulus : 0 < c.modulus) {i j : Nat}
    (hij : i ≤ j) :
    ((Gate.mk c).ticketAt j).generation = ((Gate.mk c).ticketAt i).generation ↔
      c.modulus.toNat / Nat.gcd c.step.toNat c.modulus.toNat ∣ j - i := by
  have hle : c.value.toNat + (i + 1) * c.step.toNat ≤ c.value.toNat + (j + 1) * c.step.toNat :=
    Nat.add_le_add_left (Nat.mul_le_mul_right _ (Nat.succ_le_succ hij)) _
  have hdiff : c.value.toNat + (j + 1) * c.step.toNat - (c.value.toNat + (i + 1) * c.step.toNat) =
      (j - i) * c.step.toNat := by
    rw [Nat.add_sub_add_left, ← Nat.sub_mul, Nat.add_sub_add_right]
  rw [div_gcd_dvd_iff (UInt64.lt_iff_toNat_lt.mp hmodulus), ← hdiff, ← Nat.modEq_iff_dvd' hle,
    ← UInt64.toNat_inj, toNat_generation_ticketAt c hmodulus, toNat_generation_ticketAt c hmodulus,
    eq_comm]
  rfl

end CyclicCounter

namespace Gate

/-- **Superseded requests**: over any counter whose new generation is the one that is read
afterwards, no result passes after a later request, whatever is attempted between the requests and
after them, exactly if the requests have different generations.  Of a counter that goes round, a
ticket is accepted exactly if whole periods have gone by since. -/
theorem staleness_spec :
    (∀ (C : Type) [Counter C] [LawfulCounter C] (α : Type) [Inhabited α] (gate : Gate C)
      (calls : List (Call α)),
      (∀ attempts : List (Call α), requests attempts = requests calls → KeepsOut gate attempts) ↔
        (((opened gate).play calls).issued.map (·.generation)).Nodup) ∧
    ∀ (α : Type) (c : CyclicCounter) (calls : List (Call α)), 0 < c.modulus →
      ∀ place ticket, ((opened ⟨c⟩).play calls).issued[place]? = some ticket →
        (((opened ⟨c⟩).play calls).gate.accepts ticket = true ↔
          c.modulus.toNat / Nat.gcd c.step.toNat c.modulus.toNat ∣
            ((opened ⟨c⟩).play calls).issued.length - 1 - place) := by
  constructor
  · intro C _ _ α _ gate calls
    rw [forall_keepsOut_iff, play_opened, List.map_map]
    rfl
  · intro α c calls hmodulus place ticket hticket
    have hplace : place < requests calls := by
      rw [← length_issued_play (Gate.mk c)]
      exact (List.getElem?_eq_some_iff.mp hticket).1
    rw [getElem?_issued_play _ _ hplace] at hticket
    obtain ⟨n, hn⟩ : ∃ n, requests calls = n + 1 := ⟨requests calls - 1, by omega⟩
    rw [← Option.some.inj hticket, accepts_play_iff _ _ hn, length_issued_play, hn,
      Nat.add_sub_cancel]
    exact c.generation_ticketAt_eq_iff hmodulus (by omega)

/-- A counter that is back after three steps, since they share a factor with its modulus. -/
def thirds : CyclicCounter where
  value := 3
  step := 4
  modulus := 6

/-- The first three requests are safe from each other, and the fourth one brings the first back. -/
theorem staleness_spec_thirds :
    LawfulCounter CyclicCounter ∧ 0 < thirds.modulus ∧
    (∀ attempts : List (Call String), requests attempts = 3 → KeepsOut ⟨thirds⟩ attempts) ∧
    (¬ ∀ attempts : List (Call String), requests attempts = 4 → KeepsOut ⟨thirds⟩ attempts) ∧
    ((opened ⟨thirds⟩).play (List.replicate 4 (.enter : Call String))).issued[0]? = some ⟨1⟩ ∧
    ((opened ⟨thirds⟩).play (List.replicate 4 (.enter : Call String))).gate.accepts ⟨1⟩ = true := by
  have hmodulus : 0 < thirds.modulus := by decide
  have hfirst : ((opened ⟨thirds⟩).play (List.replicate 4 (.enter : Call String))).issued[0]? =
      some ⟨1⟩ := by decide
  obtain ⟨hkeeps, haccepts⟩ := staleness_spec
  refine ⟨inferInstance, hmodulus, ?_, ?_, hfirst, ?_⟩
  · exact (hkeeps CyclicCounter String ⟨thirds⟩ (List.replicate 3 .enter)).mpr (by decide)
  · intro hall
    exact absurd ((hkeeps CyclicCounter String ⟨thirds⟩ (List.replicate 4 .enter)).mp hall)
      (by decide)
  · exact (haccepts String thirds _ hmodulus 0 ⟨1⟩ hfirst).mpr (by decide)

end Gate

end MetricHistory
