import MetricHistory.Gate
import Mathlib.Algebra.Group.Nat.Defs
import Mathlib.Data.List.Induction
import Mathlib.Data.List.Nodup

/-!
# Sessions at a gate

Clients share a gate.  A call reads or moves the counter once, and this is when it takes effect, so
that a session is a sequence of calls in the order in which they reached the counter, with the
client of each call and its answer.  Any sequence is possible in which only issued tickets are shown
to the gate.

* `Gate.Step`, `Gate.Run`: one call, and a session of calls.
* `Gate.Run.latest_eq_getLast`: over any lawful counter the latest generation is that of the ticket
  issued last.
* `Gate.Counted.generation_getElem`: a gate that counts by one issues consecutive generations.
* `Gate.session_spec`: which tickets are accepted at which moment, and which results pass.
-/

namespace MetricHistory.Gate

/-! ### Calls -/

/-- A call to a gate, with its answer. -/
inductive Event (α : Type) where
  | entered (ticket : Ticket)
  | judged (ticket : Ticket) (accepted : Bool)
  | read (generation : UInt64)
  | passed (ticket : Ticket) (result : α) (answer : Option α)

/-- The ticket that a call was issued. -/
def Event.ticket? {α : Type} : Event α → Option Ticket
  | entered ticket => some ticket
  | _ => none

/-- The generation of the result that a call let pass. -/
def Event.shown? {α : Type} : Event α → Option UInt64
  | passed ticket _ (some _) => some ticket.generation
  | _ => none

/-- A gate, and the tickets that it has issued, the first one first. -/
structure Session (C : Type) where
  gate : Gate C
  issued : List Ticket

/-- A session at a gate that has issued no ticket. -/
def opened {C : Type} (gate : Gate C) : Session C :=
  { gate, issued := [] }

variable {C ι α : Type} [Counter C]

/-- One call by one client.  Every client may show any ticket that was issued. -/
inductive Step : Session C → ι × Event α → Session C → Prop where
  | enter (s : Session C) (client : ι) :
      Step s (client, .entered s.gate.enter.1) ⟨s.gate.enter.2, s.issued ++ [s.gate.enter.1]⟩
  | judge (s : Session C) (client : ι) {ticket : Ticket} (h : ticket ∈ s.issued) :
      Step s (client, .judged ticket (s.gate.accepts ticket)) s
  | read (s : Session C) (client : ι) : Step s (client, .read s.gate.latest) s
  | pass (s : Session C) (client : ι) {ticket : Ticket} (h : ticket ∈ s.issued) (result : α) :
      Step s (client, .passed ticket result (s.gate.pass? ticket result)) s

/-- `Run s log s'`: the calls of `log`, one after the other, lead from `s` to `s'`. -/
inductive Run (s : Session C) : List (ι × Event α) → Session C → Prop where
  | nil : Run s [] s
  | concat {log : List (ι × Event α)} {t u : Session C} {e : ι × Event α} (hrun : Run s log t)
      (hstep : Step t e u) : Run s (log ++ [e]) u

/-- The tickets issued in a session, the first one first. -/
def tickets (log : List (ι × Event α)) : List Ticket :=
  log.filterMap fun e => e.2.ticket?

/-- The generations of the results that passed, the first one first. -/
def shown (log : List (ι × Event α)) : List UInt64 :=
  log.filterMap fun e => e.2.shown?

@[simp] theorem tickets_append (log log' : List (ι × Event α)) :
    tickets (log ++ log') = tickets log ++ tickets log' :=
  List.filterMap_append

@[simp] theorem tickets_entered (client : ι) (ticket : Ticket) (log : List (ι × Event α)) :
    tickets ((client, .entered ticket) :: log) = ticket :: tickets log :=
  rfl

theorem shown_concat (log : List (ι × Event α)) (e : ι × Event α) :
    shown (log ++ [e]) = shown log ++ e.2.shown?.toList := by
  rw [shown, List.filterMap_append, shown]
  cases h : e.2.shown? <;> simp [h]

/-! ### Sessions -/

variable {s t u : Session C} {log : List (ι × Event α)} {e : ι × Event α}

theorem Step.issued_eq (h : Step t e u) : u.issued = t.issued ++ e.2.ticket?.toList := by
  cases h <;> simp [Event.ticket?]

theorem pass?_eq (gate : Gate C) (ticket : Ticket) (result : α) :
    gate.pass? ticket result = if gate.accepts ticket = true then some result else none :=
  rfl

/-- A result that passes carries the latest generation. -/
theorem Step.eq_latest_of_shown (h : Step t e u) :
    ∀ generation ∈ e.2.shown?, generation = t.gate.latest := by
  cases h with
  | pass client hticket result =>
    intro generation hshown
    rw [pass?_eq] at hshown
    split_ifs at hshown with haccepts
    · cases hshown
      exact (beq_iff_eq.mp haccepts).symm
    · cases hshown
  | enter => exact nofun
  | judge => exact nofun
  | read => exact nofun

theorem Run.issued_eq (h : Run s log t) : t.issued = s.issued ++ tickets log := by
  induction h with
  | nil => simp [tickets]
  | @concat log t u e _ hstep ih =>
    rw [hstep.issued_eq, ih, List.append_assoc, tickets, tickets, List.filterMap_append]
    cases h : e.2.ticket? <;> simp [h]

/-- The tickets of a session at a fresh gate are those that the log tells of. -/
theorem Run.issued_eq_tickets {gate : Gate C} (h : Run (opened gate) log t) :
    t.issued = tickets log := by
  rw [h.issued_eq]
  rfl

theorem run_concat_iff :
    Run s (log ++ [e]) u ↔ ∃ t, Run s log t ∧ Step t e u := by
  constructor
  · intro h
    generalize hlog : log ++ [e] = log' at h
    cases h with
    | nil => simp at hlog
    | concat hrun hstep =>
      obtain ⟨rfl, he⟩ := List.append_inj' hlog rfl
      cases he
      exact ⟨_, hrun, hstep⟩
  · rintro ⟨t, hrun, hstep⟩
    exact hrun.concat hstep

/-- Between any two calls of a session there is a moment. -/
theorem Run.split {before after : List (ι × Event α)} (h : Run s (before ++ after) u) :
    ∃ t, Run s before t ∧ Run t after u := by
  -- a run is lengthened at its end, so `after` is taken apart from there
  induction after using List.reverseRecOn generalizing u with
  | nil => exact ⟨u, by rwa [List.append_nil] at h, .nil⟩
  | append_singleton after e ih =>
    rw [← List.append_assoc, run_concat_iff] at h
    obtain ⟨v, hrun, hstep⟩ := h
    obtain ⟨t, hbefore, hafter⟩ := ih hrun
    exact ⟨t, hbefore, hafter.concat hstep⟩

/-- A call in a session was made at some moment of it. -/
theorem Run.split_at {before after : List (ι × Event α)} (h : Run s (before ++ e :: after) u) :
    ∃ t t', Run s before t ∧ Step t e t' := by
  rw [List.append_cons] at h
  obtain ⟨t', hfirst, -⟩ := h.split
  obtain ⟨t, hbefore, hstep⟩ := run_concat_iff.mp hfirst
  exact ⟨t, t', hbefore, hstep⟩

/-! ### The latest ticket -/

section Lawful

variable [LawfulCounter C]

@[simp] theorem latest_enter (gate : Gate C) : gate.enter.2.latest = gate.enter.1.generation :=
  LawfulCounter.latest_advance gate.counter

theorem Step.latest_eq_getLast (h : Step t e u)
    (ht : ∀ last, t.issued.getLast? = some last → t.gate.latest = last.generation) :
    ∀ last, u.issued.getLast? = some last → u.gate.latest = last.generation := by
  cases h with
  | enter =>
    intro last hlast
    rw [List.getLast?_concat, Option.some.injEq] at hlast
    rw [latest_enter, hlast]
  | judge => exact ht
  | read => exact ht
  | pass => exact ht

/-- The latest generation is that of the ticket issued last. -/
theorem Run.latest_eq_getLast {gate : Gate C} (h : Run (opened gate) log t) :
    ∀ last, t.issued.getLast? = some last → t.gate.latest = last.generation := by
  induction h with
  | nil =>
    intro last hlast
    cases hlast
  | concat _ hstep ih => exact hstep.latest_eq_getLast ih

/-- The gate accepts a ticket that it issued exactly if it issued no other generation later. -/
theorem Run.accepts_iff {gate : Gate C} (h : Run (opened gate) log t) {ticket : Ticket}
    (hticket : ticket ∈ t.issued) :
    t.gate.accepts ticket = true ↔ t.issued.getLast? = some ticket := by
  obtain ⟨last, hlast⟩ : ∃ last, t.issued.getLast? = some last :=
    Option.isSome_iff_exists.mp (List.getLast?_isSome.mpr (List.ne_nil_of_mem hticket))
  rw [accepts, beq_iff_eq, h.latest_eq_getLast last hlast, hlast, Option.some.injEq]
  constructor
  · intro hgeneration
    cases last
    cases ticket
    exact congrArg _ hgeneration
  · rintro rfl
    rfl

/-! ### Moments of a session -/

theorem getLast?_append_cons_iff {β : Type} {before after : List β} {b : β}
    (hnodup : (before ++ b :: after).Nodup) :
    (before ++ b :: after).getLast? = some b ↔ after = [] := by
  constructor
  · intro hlast
    by_contra hne
    have hmem : b ∈ after := by
      rw [List.getLast?_append_of_ne_nil _ (List.cons_ne_nil b after),
        List.getLast?_cons_of_ne_nil hne] at hlast
      exact List.mem_of_getLast? hlast
    exact (List.nodup_cons.mp hnodup.of_append_right).1 hmem
  · rintro rfl
    exact List.getLast?_concat

variable {gate : Gate C} {before between after : List (ι × Event α)} {client client' : ι}
  {ticket : Ticket}

/-- A ticket is accepted as long as no later one is issued. -/
theorem Run.accepts_entered_iff
    (h : Run (opened gate) (before ++ (client, .entered ticket) :: after) t)
    (hnodup : (tickets (before ++ (client, .entered ticket) :: after)).Nodup) :
    t.gate.accepts ticket = true ↔ tickets after = [] := by
  have hissued := h.issued_eq_tickets
  rw [tickets_append, tickets_entered] at hnodup hissued
  have hmem : ticket ∈ t.issued := by rw [hissued]; simp
  rw [h.accepts_iff hmem, hissued, getLast?_append_cons_iff hnodup]

/-- Whether a ticket is accepted depends on the tickets issued between. -/
theorem Run.judged_iff {accepted : Bool}
    (h : Run (opened gate)
      ((before ++ (client, .entered ticket) :: between) ++
        (client', .judged ticket accepted) :: after) u)
    (hnodup : (tickets (before ++ (client, .entered ticket) :: between)).Nodup) :
    accepted = true ↔ tickets between = [] := by
  obtain ⟨t, _, hrun, hstep⟩ := h.split_at
  cases hstep
  exact hrun.accepts_entered_iff hnodup

/-- A result passes if no ticket is issued between that of its request and its own call. -/
theorem Run.passed_eq {result : α} {answer : Option α}
    (h : Run (opened gate)
      ((before ++ (client, .entered ticket) :: between) ++
        (client', .passed ticket result answer) :: after) u)
    (hnodup : (tickets (before ++ (client, .entered ticket) :: between)).Nodup) :
    answer = if tickets between = [] then some result else none := by
  obtain ⟨t, _, hrun, hstep⟩ := h.split_at
  cases hstep
  rw [pass?_eq, if_congr (hrun.accepts_entered_iff hnodup) rfl rfl]

/-- A ticket that is no longer accepted stays so. -/
theorem Run.accepts_of_stale (ht : Run (opened gate) before t)
    (hu : Run (opened gate) (before ++ after) u) (hnodup : (tickets (before ++ after)).Nodup)
    (hmem : ticket ∈ tickets before) (hstale : t.gate.accepts ticket = false) :
    u.gate.accepts ticket = false := by
  have hbefore := ht.issued_eq_tickets
  have hall := hu.issued_eq_tickets
  rw [tickets_append] at hnodup hall
  have hissued : ticket ∈ u.issued := hall ▸ List.mem_append_left _ hmem
  rw [Bool.eq_false_iff, ne_eq, hu.accepts_iff hissued, hall]
  rw [Bool.eq_false_iff, ne_eq, ht.accepts_iff (by rwa [hbefore]), hbefore] at hstale
  intro hlast
  -- the last ticket is either the one that was last before, or one that is issued after
  by_cases hafter : tickets after = []
  · rw [hafter, List.append_nil] at hlast
    exact hstale hlast
  · rw [List.getLast?_append_of_ne_nil _ hafter] at hlast
    exact List.disjoint_of_nodup_append hnodup hmem (List.mem_of_getLast? hlast)

theorem Run.answer_of_stale (ht : Run (opened gate) before t)
    (hu : Run (opened gate) (before ++ after) u) (hnodup : (tickets (before ++ after)).Nodup)
    (hmem : ticket ∈ tickets before) (hstale : t.gate.accepts ticket = false)
    {result : α} {answer : Option α} (hpass : (client, .passed ticket result answer) ∈ after) :
    answer = none := by
  obtain ⟨mid, rest, rfl⟩ := List.append_of_mem hpass
  rw [← List.append_assoc] at hu hnodup
  obtain ⟨v, _, hrun, hstep⟩ := hu.split_at
  rw [tickets_append] at hnodup
  cases hstep
  rw [pass?_eq, ht.accepts_of_stale hrun hnodup.of_append_left hmem hstale]
  rfl

end Lawful

/-! ### Counting by one -/

/-- The generations issued since the gate was opened are those from `n + 1` on. -/
structure Counted (n : Nat) (s : Session UInt64) : Prop where
  latest_eq : s.gate.latest.toNat = n + s.issued.length
  generations : s.issued.map (·.generation.toNat) = List.range' (n + 1) s.issued.length

theorem toNat_generation_enter (gate : Gate UInt64) (h : gate.latest.toNat + 1 < 2 ^ 64) :
    gate.enter.1.generation.toNat = gate.latest.toNat + 1 := by
  have hadd : gate.enter.1.generation = gate.latest + 1 := rfl
  rw [hadd, UInt64.toNat_add]
  exact Nat.mod_eq_of_lt h

section Counting

variable {n : Nat} {s t u : Session UInt64} {log : List (ι × Event α)} {e : ι × Event α}

theorem Counted.step (ht : Counted n t) (h : Step t e u) (hbound : n + u.issued.length < 2 ^ 64) :
    Counted n u := by
  cases h with
  | enter =>
    rw [List.length_append, List.length_singleton, ← Nat.add_assoc, ← ht.latest_eq] at hbound
    have hgeneration := toNat_generation_enter t.gate hbound
    constructor
    · rw [latest_enter, hgeneration, ht.latest_eq, List.length_append, List.length_singleton,
        Nat.add_assoc]
    · rw [List.map_append, ht.generations, List.length_append, List.length_singleton,
        List.range'_concat, List.map_singleton, hgeneration, ht.latest_eq]
      congr 2
      omega
  | judge => exact ht
  | read => exact ht
  | pass => exact ht

theorem Run.counted {n : UInt64} (h : Run (opened (startingAt n)) log s)
    (hbound : n.toNat + (tickets log).length < 2 ^ 64) : Counted n.toNat s := by
  induction h with
  | nil => exact ⟨rfl, rfl⟩
  | @concat log t u e hrun hstep ih =>
    have hu : u.issued = tickets (log ++ [e]) := (hrun.concat hstep).issued_eq_tickets
    have hlater : (tickets log).length ≤ (tickets (log ++ [e])).length := by simp
    have ht : Counted n.toNat t := ih (by omega)
    exact ht.step hstep (hu ▸ hbound)

/-- The `k`-th ticket carries the generation `n + k + 1`, counted from the zeroth. -/
theorem Counted.generation_getElem (hs : Counted n s) {k : Nat} {ticket : Ticket}
    (hk : s.issued[k]? = some ticket) : ticket.generation.toNat = n + (k + 1) := by
  have hmap : (s.issued.map (·.generation.toNat))[k]? = some ticket.generation.toNat := by
    rw [List.getElem?_map, hk]
    rfl
  rw [hs.generations, List.getElem?_eq_some_iff] at hmap
  obtain ⟨hlt, hgeneration⟩ := hmap
  rw [List.getElem_range'] at hgeneration
  omega

theorem Counted.nodup_generation (hs : Counted n s) : (s.issued.map (·.generation)).Nodup := by
  have hnodup : ((s.issued.map (·.generation)).map UInt64.toNat).Nodup := by
    rw [List.map_map]
    exact hs.generations ▸ List.nodup_range'
  exact hnodup.of_map

/-- No result passes of a generation older than one that passed before. -/
theorem Run.pairwise_shown {n : UInt64} (h : Run (opened (startingAt n)) log s)
    (hbound : n.toNat + (tickets log).length < 2 ^ 64) :
    (∀ generation ∈ shown log, generation ≤ s.gate.latest) ∧ (shown log).Pairwise (· ≤ ·) := by
  induction h with
  | nil => simp [shown]
  | @concat log t u e hrun hstep ih =>
    have hu : u.issued = tickets (log ++ [e]) := (hrun.concat hstep).issued_eq_tickets
    have hlater : (tickets log).length ≤ (tickets (log ++ [e])).length := by simp
    obtain ⟨hle, hpairwise⟩ := ih (by omega)
    -- the counter never falls, since it counts the tickets
    have hlatest : t.gate.latest ≤ u.gate.latest := by
      have ht := (hrun.counted (by omega)).latest_eq
      have hu' := ((hrun.concat hstep).counted hbound).latest_eq
      rw [hrun.issued_eq_tickets] at ht
      rw [hu] at hu'
      rw [UInt64.le_iff_toNat_le]
      omega
    have hnew : ∀ generation ∈ e.2.shown?, generation = t.gate.latest :=
      hstep.eq_latest_of_shown
    rw [shown_concat]
    constructor
    · intro generation hmem
      rcases List.mem_append.mp hmem with hold | hlast
      · exact UInt64.le_trans (hle generation hold) hlatest
      · rw [hnew generation (Option.mem_toList.mp hlast)]
        exact hlatest
    · rw [List.pairwise_append]
      refine ⟨hpairwise, ?_, ?_⟩
      · cases e.2.shown? <;> simp
      · intro generation hold last hlast
        rw [hnew last (Option.mem_toList.mp hlast)]
        exact hle generation hold

theorem Run.toNat_read {n : UInt64} {before after : List (ι × Event α)} {client : ι}
    {generation : UInt64}
    (h : Run (opened (startingAt n)) (before ++ (client, .read generation) :: after) s)
    (hbound : n.toNat + (tickets before).length < 2 ^ 64) :
    generation.toNat = n.toNat + (tickets before).length := by
  obtain ⟨t, _, hrun, hstep⟩ := h.split_at
  cases hstep
  rw [(hrun.counted hbound).latest_eq, hrun.issued_eq_tickets]

end Counting

/-- **Sessions**: whatever the clients call in whatever order at a gate that counts by one from `n`,
as long as the counter does not overflow,

* the tickets carry the generations `n + 1`, `n + 2` and so on, so that none comes twice;
* a ticket is accepted exactly until the next one is issued, so that exactly one is accepted once
  there is any, and this is what clients are told;
* a result passes exactly if no ticket was issued since that of its request;
* a ticket that is no longer accepted lets no result pass any more;
* the results that pass come in the order of their generations. -/
theorem session_spec (n : UInt64) {log : List (ι × Event α)} {s : Session UInt64}
    (hrun : Run (opened (startingAt n)) log s)
    (hbound : n.toNat + (tickets log).length < 2 ^ 64) :
    (∀ k ticket, (tickets log)[k]? = some ticket →
      ticket.generation.toNat = n.toNat + (k + 1)) ∧
    ((tickets log).map (·.generation)).Nodup ∧
    (∀ before client ticket after, log = before ++ (client, .entered ticket) :: after →
      (s.gate.accepts ticket = true ↔ tickets after = [])) ∧
    (tickets log ≠ [] → ∃! ticket, ticket ∈ tickets log ∧ s.gate.accepts ticket = true) ∧
    (∀ before client ticket between client' accepted after,
      log = (before ++ (client, .entered ticket) :: between) ++
          (client', .judged ticket accepted) :: after →
        (accepted = true ↔ tickets between = [])) ∧
    (∀ before client generation after, log = before ++ (client, .read generation) :: after →
      generation.toNat = n.toNat + (tickets before).length) ∧
    (∀ before client ticket between client' result answer after,
      log = (before ++ (client, .entered ticket) :: between) ++
          (client', .passed ticket result answer) :: after →
        answer = if tickets between = [] then some result else none) ∧
    (∀ before after t ticket, log = before ++ after → Run (opened (startingAt n)) before t →
      ticket ∈ tickets before → t.gate.accepts ticket = false →
        s.gate.accepts ticket = false ∧
        ∀ client result answer, (client, .passed ticket result answer) ∈ after → answer = none) ∧
    (shown log).Pairwise (· ≤ ·) := by
  have hissued := hrun.issued_eq_tickets
  have hcounted := hrun.counted hbound
  have hgenerations := hcounted.nodup_generation
  rw [hissued] at hgenerations
  have hnodup : (tickets log).Nodup := hgenerations.of_map
  refine ⟨?_, hgenerations, ?_, ?_, ?_, ?_, ?_, ?_, (hrun.pairwise_shown hbound).2⟩
  · intro k ticket hk
    rw [← hissued] at hk
    exact hcounted.generation_getElem hk
  · rintro before client ticket after rfl
    exact hrun.accepts_entered_iff hnodup
  · intro hne
    obtain ⟨last, hlast⟩ := Option.isSome_iff_exists.mp (List.getLast?_isSome.mpr hne)
    have haccepts : ∀ ticket ∈ tickets log, s.gate.accepts ticket = true ↔ ticket = last := by
      intro ticket hticket
      rw [hrun.accepts_iff (hissued ▸ hticket), hissued, hlast, Option.some.injEq, eq_comm]
    have hmem := List.mem_of_getLast? hlast
    refine ⟨last, ⟨hmem, (haccepts last hmem).mpr rfl⟩, ?_⟩
    rintro ticket ⟨hticket, haccepted⟩
    exact (haccepts ticket hticket).mp haccepted
  · rintro before client ticket between client' accepted after rfl
    rw [tickets_append] at hnodup
    exact hrun.judged_iff hnodup.of_append_left
  · rintro before client generation after rfl
    rw [tickets_append, List.length_append] at hbound
    exact hrun.toNat_read (by omega)
  · rintro before client ticket between client' result answer after rfl
    rw [tickets_append] at hnodup
    exact hrun.passed_eq hnodup.of_append_left
  · rintro before after t ticket rfl ht hmem hstale
    refine ⟨ht.accepts_of_stale hrun hnodup hmem hstale, ?_⟩
    intro client result answer hpass
    exact ht.answer_of_stale hrun hnodup hmem hstale hpass

/-- Two clients enter, the later one shows its result, and then the earlier one tries to. -/
def overtaking : List (String × Event String) :=
  [("a", .entered ⟨6⟩), ("b", .entered ⟨7⟩), ("b", .passed ⟨7⟩ "new" (some "new")),
    ("a", .passed ⟨6⟩ "old" none)]

theorem run_overtaking :
    Run (opened (startingAt 5)) overtaking ⟨startingAt 7, [⟨6⟩, ⟨7⟩]⟩ := by
  have hfirst : Run (opened (startingAt 5)) [("a", (.entered ⟨6⟩ : Event String))]
      ⟨startingAt 6, [⟨6⟩]⟩ := Run.nil.concat (.enter _ _)
  have hsecond := hfirst.concat (.enter _ "b")
  have hnew := hsecond.concat (.pass _ "b" (List.mem_cons_of_mem _ List.mem_cons_self) "new")
  exact hnew.concat (.pass _ "a" List.mem_cons_self "old")

/-- One of the two tickets is accepted in the end, and the results that passed are in order. -/
theorem existsUnique_accepts_overtaking :
    Run (opened (startingAt 5)) overtaking ⟨startingAt 7, [⟨6⟩, ⟨7⟩]⟩ ∧
    (5 : UInt64).toNat + (tickets overtaking).length < 2 ^ 64 ∧
    (∃! ticket, ticket ∈ tickets overtaking ∧ (startingAt 7).accepts ticket = true) ∧
    (shown overtaking).Pairwise (· ≤ ·) := by
  have hbound : (5 : UInt64).toNat + (tickets overtaking).length < 2 ^ 64 := by decide
  obtain ⟨-, -, -, hunique, -, -, -, -, hshown⟩ := session_spec 5 run_overtaking hbound
  exact ⟨run_overtaking, hbound, hunique (List.cons_ne_nil _ _), hshown⟩

end MetricHistory.Gate
