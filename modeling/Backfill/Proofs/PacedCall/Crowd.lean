import Backfill.Proofs.PacedCall.Stages

/-!
# A crowd of callers

Any number of callers share the locks in memory, and what they do comes in any order, at moments of one clock. Two
calls to one limited provider begin at least the delay apart if both begin before the locks expire that they are
made under. A lock goes on expiring while its caller waits, and the next caller that takes it knows of the same
last call and waits for the same moment.
-/

namespace Backfill

/-- From one moment to another one the same time has passed by the date as by the timer. -/
def Clock.Steady (a b : Clock) : Prop :=
  a.timer ≤ b.timer ∧ a.date ≤ b.date ∧ b.date.nanosSince a.date = (b.timer - a.timer : Nat)

instance (a b : Clock) : Decidable (a.Steady b) := inferInstanceAs (Decidable (_ ∧ _ ∧ _))

/-- When a lock expires that is taken now. -/
def CallTerms.expiry (t : CallTerms) (taken : Clock) : Timestamp := taken.date.after (t.lock.expirySeconds * giga)

/-- A physical call that begins: its terms, when its caller took the lock, and when it begins. -/
structure Start where
  terms : CallTerms
  taken : Clock
  began : Clock

namespace Start

/-- The call begins before the lock expires that it is made under. -/
def InTime (b : Start) : Prop := Axis.before b.began.date (b.terms.expiry b.taken) = true

instance (b : Start) : Decidable b.InTime := inferInstanceAs (Decidable (_ = _))

/-- The call is one to the limited provider with this lock and begins in time. -/
def Counts (key : String) (b : Start) : Prop := b.terms.lockName = key ∧ b.terms.minDelay ≠ none ∧ b.InTime

/-- If both count, the second one keeps its distance. -/
def Apart (a b : Start) : Prop :=
  ∀ key, a.Counts key → b.Counts key → a.began.timer + b.terms.minDelay.getD 0 ≤ b.began.timer

end Start

/-- A caller, and a record that nothing reads: when it took its last lock. -/
structure Caller (β : Type) where
  terms : CallTerms
  call : PacedCall β
  taken : Clock

/-- Callers at one gate, and a record that nothing reads: the physical calls in the order in which they began. -/
structure Crowd (β : Type) where
  gate : Gate Locks := { locks := {} }
  callers : List (Caller β) := []
  starts : List Start := []

/-- What the register knows: only dates that have come, and every call to a limited provider that has begun. -/
structure Recorded (past : List Clock) (locks : Locks) (starts : List Start) : Prop where
  dated : ∀ {key : String} {last : Timestamp}, locks.lastCall? key = some last → ∃ p ∈ past, last = p.date
  known : ∀ b ∈ starts, b.terms.minDelay ≠ none →
    ∃ p ∈ past, locks.lastCall? b.terms.lockName = some p.date ∧ b.began.timer ≤ p.timer

namespace Recorded

variable {past : List Clock} {clock : Clock} {locks locks' : Locks} {starts : List Start}

theorem lastCall?_record (h : Recorded past locks starts) (hpast : ∀ p ∈ past, p.Steady clock) (key : String) :
    (locks.record key clock.date).lastCall? key = some clock.date := by
  refine Locks.lastCall?_record_self fun last hlast => ?_
  obtain ⟨p, hp, rfl⟩ := h.dated hlast
  exact (hpast p hp).2.1

theorem record (h : Recorded past locks starts) (hpast : ∀ p ∈ past, p.Steady clock) (key : String) :
    Recorded (clock :: past) (locks.record key clock.date) starts where
  dated {other last} hlast := by
    by_cases hkey : other = key
    · rw [hkey, h.lastCall?_record hpast, Option.some.injEq] at hlast
      exact ⟨clock, List.mem_cons_self, hlast.symm⟩
    · rw [Locks.lastCall?_record, if_neg hkey] at hlast
      obtain ⟨p, hp, hdate⟩ := h.dated hlast
      exact ⟨p, List.mem_cons_of_mem _ hp, hdate⟩
  known b hb hlimited := by
    obtain ⟨p, hp, hlast, hle⟩ := h.known b hb hlimited
    by_cases hkey : b.terms.lockName = key
    · rw [hkey]
      exact ⟨clock, List.mem_cons_self, h.lastCall?_record hpast key, Nat.le_trans hle (hpast p hp).1⟩
    · rw [Locks.lastCall?_record, if_neg hkey]
      exact ⟨p, List.mem_cons_of_mem _ hp, hlast, hle⟩

theorem later (h : Recorded past locks starts) (hcalls : locks'.calls = locks.calls) :
    Recorded (clock :: past) locks' starts where
  dated {key last} hlast := by
    rw [Locks.lastCall?, hcalls] at hlast
    obtain ⟨p, hp, hdate⟩ := h.dated hlast
    exact ⟨p, List.mem_cons_of_mem _ hp, hdate⟩
  known b hb hlimited := by
    obtain ⟨p, hp, hlast, hle⟩ := h.known b hb hlimited
    rw [Locks.lastCall?, hcalls]
    exact ⟨p, List.mem_cons_of_mem _ hp, hlast, hle⟩

/-- The delay that is left keeps the distance from every call so far. -/
theorem distance_le (h : Recorded past locks starts) (hpast : ∀ p ∈ past, p.Steady clock) {b : Start}
    (hb : b ∈ starts) (hlimited : b.terms.minDelay ≠ none) (delay : Nat) :
    b.began.timer + delay ≤ clock.timer + (locks.lastCall? b.terms.lockName).elim 0 fun last =>
      Timestamp.remainingDelay last clock.date delay := by
  obtain ⟨p, hp, hlast, hle⟩ := h.known b hb hlimited
  obtain ⟨htimer, -, hsince⟩ := hpast p hp
  rw [hlast, Option.elim_some, Timestamp.remainingDelay, hsince]
  omega

end Recorded

namespace Caller

variable {β : Type} {past : List Clock} {clock : Clock} {locks locks' : Locks} {starts : List Start} {c : Caller β}
  {owner : String} {next : PacedCall β} {gate gate' : Gate Locks}

def goOn (clock : Clock) (next : PacedCall β) (c : Caller β) : Caller β where
  terms := c.terms
  call := next
  taken := match next.stage with
    | .holding _ => clock
    | _ => c.taken

/-- The physical call that begins when the caller's call goes on. -/
def start? (clock : Clock) (next : PacedCall β) (c : Caller β) : Option Start :=
  if next.isCalling then some ⟨c.terms, c.taken, clock⟩ else none

/-- What a caller can rely on: its lock is there until it expires, and as long as it is there, the caller's wait is
long enough for all calls so far. -/
structure Relies (past : List Clock) (locks : Locks) (starts : List Start) (c : Caller β) (owner : String) :
    Prop where
  lease : c.call.stage = .holding owner ∨ c.call.stage = .spacing owner →
    locks.leases.get? c.terms.lockName = some ⟨owner, c.terms.expiry c.taken⟩ ∨
      ∃ p ∈ past, c.terms.expiry c.taken ≤ p.date
  spacing : c.call.stage = .spacing owner →
    locks.leases.get? c.terms.lockName = some ⟨owner, c.terms.expiry c.taken⟩ →
      ∀ b ∈ starts, b.Counts c.terms.lockName → b.began.timer + c.terms.minDelay.getD 0 ≤ c.call.wake

theorem relies_of_stage (hholding : c.call.stage ≠ .holding owner) (hspacing : c.call.stage ≠ .spacing owner) :
    c.Relies past locks starts owner where
  lease hstage := absurd hstage (not_or.2 ⟨hholding, hspacing⟩)
  spacing hstage := absurd hstage hspacing

theorem relies_of_owner?_ne (h : c.call.owner? ≠ some owner) : c.Relies past locks starts owner := by
  refine relies_of_stage (fun hstage => h ?_) fun hstage => h ?_
  · rw [PacedCall.owner?, hstage]
  · rw [PacedCall.owner?, hstage]

/-- The lock of a caller that begins its call in time is there. -/
theorem Relies.lease_of_counts (h : c.Relies past locks starts owner) (hpast : ∀ p ∈ past, p.Steady clock)
    (hstage : c.call.stage = .spacing owner) {key : String} (hcounts : Start.Counts key ⟨c.terms, c.taken, clock⟩) :
    locks.leases.get? key = some ⟨owner, c.terms.expiry c.taken⟩ := by
  obtain ⟨rfl, -, htime⟩ := hcounts
  rcases h.lease (Or.inr hstage) with hlease | ⟨p, hp, hlate⟩
  · exact hlease
  · have hdate := (hpast p hp).2.1
    rw [Start.InTime, Axis.before_iff] at htime
    rw [Axis.le_iff_rank] at hdate hlate
    simp only at htime
    omega

theorem Relies.later (h : c.Relies past locks starts owner) : c.Relies (clock :: past) locks starts owner where
  lease hstage := (h.lease hstage).imp_right fun ⟨p, hp, hlate⟩ => ⟨p, List.mem_cons_of_mem _ hp, hlate⟩
  spacing := h.spacing

/-- What others do leaves the caller what it relies on. -/
theorem Relies.spared (h : c.Relies past locks starts owner) (hspares : Locks.Spares clock.date owner locks locks')
    {new : List Start} (hnew : ∀ b ∈ new, b.Counts c.terms.lockName →
      ∃ lease, locks'.leases.get? c.terms.lockName = some lease ∧ lease.owner ≠ owner) :
    c.Relies (clock :: past) locks' (starts ++ new) owner where
  lease hstage := by
    rcases h.lease hstage with hlease | ⟨p, hp, hlate⟩
    · rcases hspares.kept hlease rfl with hlease | hlate
      · exact Or.inl hlease
      · exact Or.inr ⟨clock, List.mem_cons_self, hlate⟩
    · exact Or.inr ⟨p, List.mem_cons_of_mem _ hp, hlate⟩
  spacing hstage hlease b hb hcounts := by
    rcases List.mem_append.1 hb with hb | hb
    · exact h.spacing hstage (hspares.known hlease rfl) b hb hcounts
    · obtain ⟨other, hother, hne⟩ := hnew b hb hcounts
      rw [hlease, Option.some.injEq] at hother
      exact absurd (hother ▸ rfl) hne

theorem relies_goOn (h : ∀ owner, c.Relies past gate.locks starts owner) (hrecorded : Recorded past gate.locks starts)
    (hpast : ∀ p ∈ past, p.Steady clock) (hwake : c.call.wake? ≠ none)
    (hstep : PacedCall.Stepped c.terms clock c.call gate next gate') :
    (c.goOn clock next).Relies (clock :: past) gate'.locks (starts ++ (c.start? clock next).toList) owner := by
  cases hstep with
  | takes hstage hfree =>
      refine ⟨fun hstage => Or.inl ?_, nofun⟩
      rcases hstage with hstage | hstage
      · cases hstage
        exact Keyed.get?_set_self ..
      · cases hstage
  | @looks first hstage =>
      refine ⟨fun hnext => ?_, fun hnext hlease b hb hcounts => ?_⟩
      · have howner : first = owner := by
          rcases hnext with hnext | hnext
          · cases hnext
          · exact CallStage.spacing.inj hnext
        subst howner
        rcases (h first).lease (Or.inl hstage) with hlease | ⟨p, hp, hlate⟩
        · exact Or.inl hlease
        · exact Or.inr ⟨p, List.mem_cons_of_mem _ hp, hlate⟩
      · -- every call so far is in the register, so the wait is long enough for it, with the lock or without
        obtain ⟨hkey, hlimited, -⟩ := hcounts
        have hb : b ∈ starts ++ [] := hb
        rw [List.append_nil] at hb
        have hdistance := hrecorded.distance_le hpast hb hlimited (c.terms.minDelay.getD 0)
        rw [hkey] at hdistance
        exact hdistance
  | leaves hstage hidle => exact relies_of_owner?_ne (hidle.1 ▸ nofun)
  | givesUp hstage hidle => exact relies_of_owner?_ne (hidle.1 ▸ nofun)
  | rests hrest => exact absurd hrest hwake
  | unlimited | asks | waits | begins | closes => exact relies_of_stage nofun nofun

theorem mem_start? {b : Start} :
    b ∈ (c.start? clock next).toList ↔ next.isCalling = true ∧ b = ⟨c.terms, c.taken, clock⟩ := by
  rw [start?]
  split <;> simp_all

theorem spacing_of_mem_start? (hwake : c.call.wake? ≠ none)
    (hstep : PacedCall.Stepped c.terms clock c.call gate next gate') {b : Start}
    (hb : b ∈ (c.start? clock next).toList) (hlimited : b.terms.minDelay ≠ none) :
    b = ⟨c.terms, c.taken, clock⟩ ∧ (∃ owner, c.call.stage = .spacing owner) ∧
      gate'.locks = gate.locks.record c.terms.lockName clock.date := by
  obtain ⟨hcalling, rfl⟩ := mem_start?.1 hb
  exact ⟨rfl, hstep.begins_of_isCalling hcalling hlimited hwake⟩

theorem recorded_goOn (h : Recorded past gate.locks starts) (hpast : ∀ p ∈ past, p.Steady clock)
    (hwake : c.call.wake? ≠ none) (hstep : PacedCall.Stepped c.terms clock c.call gate next gate') :
    Recorded (clock :: past) gate'.locks (starts ++ (c.start? clock next).toList) := by
  have hold : Recorded (clock :: past) gate'.locks starts := by
    rcases hstep.calls with hcalls | hrecord
    · exact h.later hcalls
    · rw [hrecord]
      exact h.record hpast _
  refine ⟨hold.dated, fun b hb hlimited => ?_⟩
  rcases List.mem_append.1 hb with hb | hb
  · exact hold.known b hb hlimited
  · obtain ⟨rfl, -, hrecord⟩ := spacing_of_mem_start? hwake hstep hb hlimited
    rw [hrecord]
    exact ⟨clock, List.mem_cons_self, h.lastCall?_record hpast _, Nat.le_refl _⟩

end Caller

namespace Crowd

/-- What may happen next. Callers are known by their places. -/
inductive Move (β : Type) where
  | enter (terms : CallTerms)
  | step (place : Nat)
  | answer (place : Nat) (answer : Except RpcError β)

variable {β : Type} {past : List Clock} {clock : Clock} {s : Crowd β} {place : Nat} {c : Caller β}

def step (clock : Clock) (place : Nat) (s : Crowd β) : Crowd β :=
  match s.callers[place]? with
  | none => s
  | some c =>
    if c.call.isDue clock.timer then
      { gate := (c.call.step c.terms clock s.gate).2.1
        callers := s.callers.set place (c.goOn clock (c.call.step c.terms clock s.gate).1)
        starts := s.starts ++ (c.start? clock (c.call.step c.terms clock s.gate).1).toList }
    else s

def answer (clock : Clock) (place : Nat) (answer : Except RpcError β) (s : Crowd β) : Crowd β :=
  match s.callers[place]? with
  | none => s
  | some c =>
    { s with callers := s.callers.set place { c with call := (c.call.answered c.terms clock.timer answer).1 } }

def move (s : Crowd β) : Clock × Move β → Crowd β
  | (clock, .enter terms) => { s with callers := s.callers ++ [⟨terms, { wake := clock.timer }, clock⟩] }
  | (clock, .step place) => s.step clock place
  | (clock, .answer place answer) => s.answer clock place answer

def run (s : Crowd β) (moves : List (Clock × Move β)) : Crowd β := moves.foldl move s

/-! ## Names of owners -/

/-- Every owner is known at the gate, and it is the owner of one caller only. -/
structure Named (owners : Nat) (callers : List (Caller β)) : Prop where
  known : ∀ {i : Nat} {c : Caller β} {owner : String}, callers[i]? = some c → c.call.owner? = some owner →
    ∃ n < owners, owner = PacedCall.ownerName n
  distinct : ∀ {i j : Nat} {c d : Caller β} {owner : String}, callers[i]? = some c → callers[j]? = some d →
    c.call.owner? = some owner → d.call.owner? = some owner → i = j

section

variable {owners owners' i : Nat} {callers : List (Caller β)} {next d : Caller β}

theorem eq_or_getElem?_of_set (h : (callers.set place next)[i]? = some d) :
    i = place ∧ d = next ∨ i ≠ place ∧ callers[i]? = some d := by
  by_cases hi : place = i
  · subst hi
    have hlt := (List.getElem?_eq_some_iff.1 h).1
    rw [List.getElem?_set_self (by rwa [List.length_set] at hlt), Option.some.injEq] at h
    exact Or.inl ⟨rfl, h.symm⟩
  · rw [List.getElem?_set_ne hi] at h
    exact Or.inr ⟨Ne.symm hi, h⟩

theorem getElem?_or_eq_of_append (h : (callers ++ [next])[i]? = some d) : callers[i]? = some d ∨ d = next := by
  rw [List.getElem?_append] at h
  split at h
  · exact Or.inl h
  · exact Or.inr (List.mem_singleton.1 (List.mem_of_getElem? h))

theorem Named.mono (h : Named owners callers) (hle : owners ≤ owners') : Named owners' callers where
  known hc howner := by
    obtain ⟨n, hn, hname⟩ := h.known hc howner
    exact ⟨n, Nat.lt_of_lt_of_le hn hle, hname⟩
  distinct := h.distinct

theorem Named.set (h : Named owners callers) (hplace : callers[place]? = some c) (hle : owners ≤ owners')
    (hnext : ∀ owner, next.call.owner? = some owner → c.call.owner? = some owner ∨
      owner = PacedCall.ownerName owners ∧ owners' = owners + 1) :
    Named owners' (callers.set place next) := by
  -- the owner at the place is the one that was there, or its name is new
  have hother : ∀ {i : Nat} {d : Caller β} {owner : String}, callers[i]? = some d → d.call.owner? = some owner →
      next.call.owner? = some owner → i = place := by
    intro i d owner hd hdowner howner
    rcases hnext owner howner with hold | ⟨rfl, -⟩
    · exact h.distinct hd hplace hdowner hold
    · obtain ⟨n, hn, hname⟩ := h.known hd hdowner
      exact absurd (PacedCall.ownerName_inj hname) (Nat.ne_of_gt hn)
  refine ⟨fun hd howner => ?_, fun hd he hdowner heowner => ?_⟩
  · rcases eq_or_getElem?_of_set hd with ⟨-, rfl⟩ | ⟨-, hd⟩
    · rcases hnext _ howner with hold | ⟨hname, howners⟩
      · exact (h.mono hle).known hplace hold
      · exact ⟨owners, howners ▸ Nat.lt_succ_self _, hname⟩
    · exact (h.mono hle).known hd howner
  · rcases eq_or_getElem?_of_set hd with ⟨hi, rfl⟩ | ⟨hi, hdold⟩
    · rcases eq_or_getElem?_of_set he with ⟨hj, -⟩ | ⟨hj, heold⟩
      · exact hi.trans hj.symm
      · exact absurd (hother heold heowner hdowner) hj
    · rcases eq_or_getElem?_of_set he with ⟨hj, rfl⟩ | ⟨hj, heold⟩
      · exact absurd (hother hdold hdowner heowner) hi
      · exact h.distinct hdold heold hdowner heowner

theorem Named.append (h : Named owners callers) (hnone : next.call.owner? = none) :
    Named owners (callers ++ [next]) := by
  have hold : ∀ {i : Nat} {d : Caller β} {owner : String}, (callers ++ [next])[i]? = some d →
      d.call.owner? = some owner → callers[i]? = some d := by
    intro i d owner hd howner
    rcases getElem?_or_eq_of_append hd with hd | rfl
    · exact hd
    · exact absurd (hnone.symm.trans howner) nofun
  refine ⟨fun hd howner => h.known (hold hd howner) howner, fun hd he hdowner heowner => ?_⟩
  exact h.distinct (hold hd hdowner) (hold he heowner) hdowner heowner

end

/-! ## Order in the crowd -/

/-- Owners are never shared, the register knows the calls, and callers rely on what is there. -/
structure Orderly (past : List Clock) (s : Crowd β) : Prop where
  named : Named s.gate.owners s.callers
  recorded : Recorded past s.gate.locks s.starts
  relies : ∀ {i : Nat} {c : Caller β}, s.callers[i]? = some c → ∀ owner, c.Relies past s.gate.locks s.starts owner
  apart : s.starts.Pairwise Start.Apart

theorem orderly_empty : Orderly [] ({} : Crowd β) where
  named :=
    { known := fun hc => by cases hc
      distinct := fun hc => by cases hc }
  recorded :=
    { dated := fun hlast => by cases hlast
      known := fun _ hb => by cases hb }
  relies hc := by cases hc
  apart := .nil

/-- It is enough to look at the one caller that does something. -/
theorem Orderly.set (h : Orderly past s) (clock : Clock) (hplace : s.callers[place]? = some c) (next : Caller β)
    (gate : Gate Locks) (new : List Start) (hle : s.gate.owners ≤ gate.owners)
    (howner : ∀ owner, next.call.owner? = some owner → c.call.owner? = some owner ∨
      owner = PacedCall.ownerName s.gate.owners ∧ gate.owners = s.gate.owners + 1)
    (hspares : ∀ owner, c.call.owner? ≠ some owner → Locks.Spares clock.date owner s.gate.locks gate.locks)
    (hnew : ∀ b ∈ new, ∀ key, b.Counts key →
      ∃ lease, gate.locks.leases.get? key = some lease ∧ c.call.owner? = some lease.owner)
    (hrecorded : Recorded (clock :: past) gate.locks (s.starts ++ new))
    (hrelies : ∀ owner, next.Relies (clock :: past) gate.locks (s.starts ++ new) owner)
    (hapart : (s.starts ++ new).Pairwise Start.Apart) :
    Orderly (clock :: past) ⟨gate, s.callers.set place next, s.starts ++ new⟩ := by
  refine ⟨h.named.set hplace hle howner, hrecorded, fun hd owner => ?_, hapart⟩
  rcases eq_or_getElem?_of_set hd with ⟨-, rfl⟩ | ⟨hi, hd⟩
  · exact hrelies owner
  · by_cases hmine : c.call.owner? = some owner
    · exact Caller.relies_of_owner?_ne fun ho => hi (h.named.distinct hd hplace ho hmine)
    · refine (h.relies hd owner).spared (hspares owner hmine) fun b hb hcounts => ?_
      obtain ⟨lease, hlease, hlocked⟩ := hnew b hb _ hcounts
      exact ⟨lease, hlease, fun heq => hmine (heq ▸ hlocked)⟩

theorem Orderly.later (h : Orderly past s) : Orderly (clock :: past) s where
  named := h.named
  recorded := h.recorded.later rfl
  relies hc owner := (h.relies hc owner).later
  apart := h.apart

theorem Orderly.step (h : Orderly past s) (hpast : ∀ p ∈ past, p.Steady clock) (place : Nat) :
    Orderly (clock :: past) (s.step clock place) := by
  unfold Crowd.step
  split
  · exact h.later
  · rename_i c hplace
    split
    · rename_i hdue
      obtain ⟨hwake, hreached⟩ := PacedCall.isDue_iff.1 hdue
      have hwaits : c.call.wake? ≠ none := hwake ▸ nofun
      have hstep := PacedCall.stepped_step c.terms clock c.call s.gate
      refine h.set clock hplace _ _ _ hstep.owners_le (fun _ => hstep.owner?) (fun _ => hstep.spares) ?_
        (Caller.recorded_goOn h.recorded hpast hwaits hstep)
        (fun _ => Caller.relies_goOn (h.relies hplace) h.recorded hpast hwaits hstep)
        (List.pairwise_append.2 ⟨h.apart, ?_, ?_⟩)
      · intro b hb key hcounts
        obtain ⟨rfl, ⟨owner, hstage⟩, hrecord⟩ := Caller.spacing_of_mem_start? hwaits hstep hb hcounts.2.1
        rw [hrecord]
        refine ⟨_, (h.relies hplace owner).lease_of_counts hpast hstage hcounts, ?_⟩
        rw [PacedCall.owner?, hstage]
      · rw [Caller.start?]
        split
        · exact List.pairwise_singleton ..
        · exact List.Pairwise.nil
      · -- the lock is there, so nobody has begun in time since the caller knows its wait
        intro a ha b hb key hacounts hbcounts
        obtain ⟨rfl, ⟨owner, hstage⟩, -⟩ := Caller.spacing_of_mem_start? hwaits hstep hb hbcounts.2.1
        obtain rfl := hbcounts.1
        have hlease := (h.relies hplace owner).lease_of_counts hpast hstage hbcounts
        exact Nat.le_trans ((h.relies hplace owner).spacing hstage hlease a ha hacounts) hreached
    · exact h.later

theorem Orderly.answer (h : Orderly past s) (place : Nat) (answer : Except RpcError β) :
    Orderly (clock :: past) (s.answer clock place answer) := by
  unfold Crowd.answer
  split
  · exact h.later
  · rename_i c hplace
    have hrelies : ∀ owner, Caller.Relies (clock :: past) s.gate.locks s.starts
        { c with call := (c.call.answered c.terms clock.timer answer).1 } owner := by
      intro owner
      rcases c.call.answered_cases c.terms clock.timer answer with hsame | hstage
      · rw [hsame]
        exact (h.relies hplace owner).later
      · exact Caller.relies_of_stage (hstage owner).1 (hstage owner).2
    have hset := h.set clock hplace { c with call := (c.call.answered c.terms clock.timer answer).1 } s.gate []
      (Nat.le_refl _) (fun _ ho => Or.inl (PacedCall.owner?_of_answered ho))
      (fun _ _ => Locks.spares_of_leases_eq rfl) (List.forall_mem_nil _)
    rw [List.append_nil] at hset
    exact hset (h.recorded.later rfl) hrelies h.apart

theorem Orderly.enter (h : Orderly past s) (terms : CallTerms) :
    Orderly (clock :: past) { s with callers := s.callers ++ [⟨terms, { wake := clock.timer }, clock⟩] } := by
  refine ⟨h.named.append rfl, h.recorded.later rfl, fun hd owner => ?_, h.apart⟩
  rcases getElem?_or_eq_of_append hd with hd | rfl
  · exact (h.relies hd owner).later
  · exact Caller.relies_of_owner?_ne nofun

theorem Orderly.move (h : Orderly past s) {m : Clock × Move β} (hpast : ∀ p ∈ past, p.Steady m.1) :
    Orderly (m.1 :: past) (s.move m) := by
  obtain ⟨clock, m⟩ := m
  cases m with
  | enter terms => exact h.enter terms
  | step place => exact h.step hpast place
  | answer place answer => exact h.answer place answer

theorem Orderly.run (h : Orderly past s) {moves : List (Clock × Move β)}
    (hpast : ∀ p ∈ past, ∀ m ∈ moves, p.Steady m.1) (hsteady : moves.Pairwise fun m n => m.1.Steady n.1) :
    ∃ past, Orderly past (s.run moves) := by
  induction moves generalizing past s with
  | nil => exact ⟨past, h⟩
  | cons m moves ih =>
      obtain ⟨hfirst, hrest⟩ := List.pairwise_cons.1 hsteady
      refine ih (h.move fun p hp => hpast p hp m List.mem_cons_self) (fun p hp n hn => ?_) hrest
      rcases List.mem_cons.1 hp with rfl | hp
      · exact hfirst n hn
      · exact hpast p hp n (List.mem_cons_of_mem _ hn)

/-- Of two calls to one limited provider that both begin in time, the second one begins at least its delay after
the first, however long a call takes and whatever the callers' timeouts are. -/
theorem limited_calls_keep_distance {moves : List (Clock × Move β)}
    (hsteady : moves.Pairwise fun m n => m.1.Steady n.1) :
    (({} : Crowd β).run moves).starts.Pairwise fun a b =>
      a.terms.provider = b.terms.provider → a.terms.minDelay ≠ none → a.InTime → b.InTime →
        ∀ delay, b.terms.minDelay = some delay → a.began.timer + delay ≤ b.began.timer := by
  obtain ⟨past, h⟩ := orderly_empty.run (fun _ hp => nomatch hp) hsteady
  refine h.apart.imp fun {a b} hapart hprovider hlimited ha hb delay hdelay => ?_
  have hlock : a.terms.lockName = b.terms.lockName := congrArg ("rpc:" ++ ·) hprovider
  have hle := hapart b.terms.lockName ⟨hlock, hlimited, ha⟩ ⟨rfl, hdelay ▸ nofun, hb⟩
  rwa [hdelay] at hle

/-- A provider with a minimum delay in milliseconds, and locks that expire after some seconds. -/
def nodeTerms (delayMs expirySeconds : Nat) : CallTerms where
  provider := "node"
  operation := "eth_call"
  minDelay := some (ofMillis delayMs)
  retry := {}
  lock := ⟨60000, expirySeconds⟩

/-- Milliseconds after the start of 1970. -/
def moment (ms : Nat) : Clock := Clock.runUntil ⟨.epoch, 0⟩ (ofMillis ms)

/-- The second caller finds the lock taken, has it after the first call, and waits until a second has passed since
that call ended. -/
def twoCallers : List (Clock × Move Nat) :=
  [(moment 0, .enter (nodeTerms 1000 10)), (moment 0, .enter (nodeTerms 1000 10)),
    (moment 0, .step 0), (moment 0, .step 0), (moment 0, .step 1), (moment 0, .step 1),
    (moment 0, .step 0), (moment 0, .step 0), (moment 30, .answer 0 (.ok 7)), (moment 30, .step 0),
    (moment 30, .step 0), (moment 50, .step 1), (moment 50, .step 1), (moment 1030, .step 1)]

theorem limited_calls_keep_distance_twoCallers :
    (({} : Crowd Nat).run twoCallers).starts.length = 2 ∧
    (({} : Crowd Nat).run twoCallers).starts.Pairwise fun a b => a.began.timer + 1000000000 ≤ b.began.timer := by
  have hsteady : twoCallers.Pairwise fun m n => m.1.Steady n.1 := by decide +kernel
  have hstarts : ∀ b ∈ (({} : Crowd Nat).run twoCallers).starts,
      b.terms.provider = "node" ∧ b.terms.minDelay = some 1000000000 ∧ b.InTime := by decide +kernel
  refine ⟨by decide +kernel, (limited_calls_keep_distance hsteady).imp_of_mem fun ha hb hapart => ?_⟩
  obtain ⟨haprovider, halimited, hatime⟩ := hstarts _ ha
  obtain ⟨hbprovider, hblimited, hbtime⟩ := hstarts _ hb
  exact hapart (haprovider.trans hbprovider.symm) (halimited ▸ nofun) hatime hbtime _ hblimited

/-- The lock expires after a second, and the delay is three seconds. The second caller waits with the lock, the third
one takes it over, and both wait for the same moment. -/
def takenOver : List (Clock × Move Nat) :=
  [(moment 0, .enter (nodeTerms 3000 1)), (moment 0, .enter (nodeTerms 3000 1)),
    (moment 0, .enter (nodeTerms 3000 1)), (moment 0, .step 0), (moment 0, .step 0), (moment 0, .step 0),
    (moment 0, .step 0), (moment 0, .answer 0 (.ok 7)), (moment 0, .step 0), (moment 0, .step 0),
    (moment 0, .step 1), (moment 0, .step 1), (moment 0, .step 1),
    (moment 1000, .step 2), (moment 1000, .step 2), (moment 1000, .step 2), (moment 3000, .step 1),
    (moment 3000, .step 2), (moment 3000, .answer 1 (.ok 7)), (moment 3000, .answer 2 (.ok 7))]

/-- Two calls begin together although each of them is answered at the moment at which it begins. -/
theorem calls_begin_together_takenOver :
    (takenOver.Pairwise fun m n => m.1.Steady n.1) ∧
    ((({} : Crowd Nat).run takenOver).starts.map fun b => (b.terms.provider, b.terms.minDelay, b.began.timer)) =
      [("node", some 3000000000, 0), ("node", some 3000000000, 3000000000),
        ("node", some 3000000000, 3000000000)] ∧
    (takenOver.filterMap fun m => match m.2 with
      | .answer _ _ => some m.1.timer
      | _ => none) = [0, 3000000000, 3000000000] := by
  decide +kernel

end Crowd

end Backfill
