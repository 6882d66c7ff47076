import GiPricing.Deployment.Switch

/-! # The membership of a round

Processes subscribe, answer and leave while a round publishes its message, waits for the answers,
reads the roster and decides.
-/

namespace GiPricing.Deployment

open Transition

/-- Where `prepare_round` stands after its message is out. -/
inductive RoundStage
  | waiting
  | acknowledged (acked : Finset ProcessId)
  | read (acked roster : Finset ProcessId)
  | decided
  deriving DecidableEq

/-- A round: the connections that its message reached, one entry each, and who has answered. -/
structure Round where
  switch_id : UUID
  told : List ProcessId
  acks : Finset ProcessId
  stage : RoundStage

/-- The channel of an Environment: its connections, its roster and its rounds. -/
structure Channel where
  subscribers : List ProcessId
  roster : Finset ProcessId
  rounds : List Round

namespace Channel

def round? (c : Channel) (id : UUID) : Option Round := c.rounds.find? fun r => r.switch_id = id

def setRound (c : Channel) (r : Round) : Channel :=
  { c with rounds := c.rounds.map fun q => if q.switch_id = r.switch_id then r else q }

end Channel

inductive RoundEvent
  /-- `SUBSCRIBE` is confirmed on a connection of the process. -/
  | subscribe (p : ProcessId)
  | join (p : ProcessId)
  /-- The process has hydrated the bundle of a message that reached it. -/
  | answer (id : UUID) (p : ProcessId)
  | leave (p : ProcessId)
  /-- A connection is closed, or its process has crashed. -/
  | disconnect (p : ProcessId)
  | publish (id : UUID)
  /-- `acks` returns: enough have answered, or the time is up. -/
  | collect (id : UUID)
  | readRoster (id : UUID)
  | decide (id : UUID)
  deriving DecidableEq

def Channel.step (c : Channel) : RoundEvent → Option Channel
  | .subscribe p => some { c with subscribers := p :: c.subscribers }
  | .join p => some { c with roster := insert p c.roster }
  | .leave p => some { c with roster := c.roster.erase p }
  | .disconnect p => some { c with subscribers := c.subscribers.erase p }
  | .publish id =>
    if (c.round? id).isNone then
      some { c with rounds := c.rounds ++ [⟨id, c.subscribers, ∅, .waiting⟩] }
    else none
  | .answer id p => (c.round? id).bind fun r =>
    if p ∈ r.told then some (c.setRound { r with acks := insert p r.acks }) else none
  | .collect id => (c.round? id).bind fun r => match r.stage with
    | .waiting => some (c.setRound { r with stage := .acknowledged r.acks })
    | _ => none
  | .readRoster id => (c.round? id).bind fun r => match r.stage with
    | .acknowledged acked => some (c.setRound { r with stage := .read acked c.roster })
    | _ => none
  | .decide id => (c.round? id).bind fun r => match r.stage with
    | .read acked roster =>
      let decided := c.setRound { r with stage := .decided }
      match prepareRound r.told.length acked roster with
      | .ok outcome => some { decided with roster := c.roster \ outcome.pruned_stale }
      | .error _ => some decided
    | _ => none

/-! ## The answers of a round -/

variable {c c' : Channel} {r q : Round} {id : UUID} {e : RoundEvent}

/-- Only processes that the message reached have answered. -/
structure Round.Answered (r : Round) : Prop where
  acks : r.acks ⊆ r.told.toFinset
  acknowledged : ∀ acked, r.stage = .acknowledged acked → acked ⊆ r.told.toFinset
  read : ∀ acked roster, r.stage = .read acked roster → acked ⊆ r.told.toFinset

theorem round?_mem (h : c.round? id = some r) : r ∈ c.rounds := List.mem_of_find?_eq_some h

theorem mem_setRound (h : q ∈ (c.setRound r).rounds) : q = r ∨ q ∈ c.rounds := by
  obtain ⟨p, hp, rfl⟩ := List.mem_map.mp h
  split_ifs
  · exact Or.inl rfl
  · exact Or.inr hp

/-- What a step does to the rounds: a new one, or one with the same receivers. -/
theorem step_rounds (h : c.step e = some c') (hq : q ∈ c'.rounds) :
    q ∈ c.rounds ∨ (∃ id, e = .publish id ∧ q = ⟨id, c.subscribers, ∅, .waiting⟩) ∨
      ∃ r ∈ c.rounds, q.told = r.told ∧
        ((∃ p ∈ r.told, q = { r with acks := insert p r.acks }) ∨
          r.stage = .waiting ∧ q = { r with stage := .acknowledged r.acks } ∨
          (∃ acked, r.stage = .acknowledged acked ∧
            q = { r with stage := .read acked c.roster }) ∨
          q = { r with stage := .decided }) := by
  cases e with
  | subscribe p => cases h; exact Or.inl hq
  | join p => cases h; exact Or.inl hq
  | leave p => cases h; exact Or.inl hq
  | disconnect p => cases h; exact Or.inl hq
  | publish id =>
    rw [Channel.step] at h
    split_ifs at h
    cases h
    rcases List.mem_append.mp hq with hq | hq
    · exact Or.inl hq
    · exact Or.inr (Or.inl ⟨id, rfl, List.mem_singleton.mp hq⟩)
  | answer id p =>
    obtain ⟨r, hr, h⟩ := Option.bind_eq_some_iff.mp h
    split_ifs at h with hp
    cases h
    rcases mem_setRound hq with rfl | hq
    · exact Or.inr (Or.inr ⟨r, round?_mem hr, rfl, Or.inl ⟨p, hp, rfl⟩⟩)
    · exact Or.inl hq
  | collect id =>
    obtain ⟨r, hr, h⟩ := Option.bind_eq_some_iff.mp h
    split at h
    · rename_i hstage
      cases h
      rcases mem_setRound hq with rfl | hq
      · exact Or.inr (Or.inr ⟨r, round?_mem hr, rfl, Or.inr (Or.inl ⟨hstage, rfl⟩)⟩)
      · exact Or.inl hq
    · cases h
  | readRoster id =>
    obtain ⟨r, hr, h⟩ := Option.bind_eq_some_iff.mp h
    split at h
    · rename_i acked hstage
      cases h
      rcases mem_setRound hq with rfl | hq
      · exact Or.inr (Or.inr ⟨r, round?_mem hr, rfl, Or.inr (Or.inr (Or.inl ⟨acked, hstage, rfl⟩))⟩)
      · exact Or.inl hq
    · cases h
  | decide id =>
    obtain ⟨r, hr, h⟩ := Option.bind_eq_some_iff.mp h
    split at h
    · have hrounds : c'.rounds = (c.setRound { r with stage := .decided }).rounds := by
        split at h <;> (cases h; rfl)
      rw [hrounds] at hq
      rcases mem_setRound hq with rfl | hq
      · exact Or.inr (Or.inr ⟨r, round?_mem hr, rfl, Or.inr (Or.inr (Or.inr rfl))⟩)
      · exact Or.inl hq
    · cases h

theorem step_answered (hc : ∀ r ∈ c.rounds, r.Answered) (h : c.step e = some c') :
    ∀ r ∈ c'.rounds, r.Answered := by
  intro q hq
  rcases step_rounds h hq with hq | ⟨id, -, rfl⟩ | ⟨r, hr, -, hcase⟩
  · exact hc q hq
  · exact ⟨Finset.empty_subset _, nofun, nofun⟩
  obtain ⟨hacks, hacknowledged, hread⟩ := hc r hr
  rcases hcase with ⟨p, hp, rfl⟩ | ⟨-, rfl⟩ | ⟨acked, hstage, rfl⟩ | rfl
  · exact ⟨Finset.insert_subset (List.mem_toFinset.mpr hp) hacks, hacknowledged, hread⟩
  · exact ⟨hacks, fun acked he => RoundStage.acknowledged.inj he ▸ hacks, nofun⟩
  · refine ⟨hacks, nofun, fun _ _ he => ?_⟩
    cases he
    exact hacknowledged acked hstage
  · exact ⟨hacks, nofun, nofun⟩

theorem told_subset_of_card {told : List ProcessId} {acked : Finset ProcessId}
    (hsub : acked ⊆ told.toFinset) (hcard : told.length ≤ acked.card) : told.toFinset ⊆ acked := by
  have hle : told.toFinset.card ≤ acked.card := (List.toFinset_card_le told).trans hcard
  exact (Finset.eq_of_subset_of_card_le hsub hle).ge

/-! ## Who a round drops, and whom it misses -/

/-- A process that a decision prunes from the roster is none that was subscribed when the message
was published. -/
def PrunesGhosts (c : Channel) (e : RoundEvent) (c' : Channel) : Prop :=
  ∀ id r, e = .decide id → c.round? id = some r → ∀ p ∈ c.roster, p ∉ c'.roster → p ∉ r.told

/-- Every process that is subscribed at a decision is one that the message reached, and that the
round has waited for. -/
def ReachesSubscribed (c : Channel) (e : RoundEvent) (_ : Channel) : Prop :=
  ∀ id r, e = .decide id → c.round? id = some r → ∀ p ∈ c.subscribers, p ∈ r.told

/-- No process subscribes in a round whose message has not reached it. -/
def NoLateSubscriber (c : Channel) (e : RoundEvent) (_ : Channel) : Prop :=
  ∀ p, e = .subscribe p → ∀ r ∈ c.rounds, r.stage ≠ .decided → p ∈ r.told

theorem step_prunesGhosts (hc : ∀ r ∈ c.rounds, r.Answered) (h : c.step e = some c') :
    PrunesGhosts c e c' := by
  rintro id r rfl hr p hp hpruned htold
  obtain ⟨r', hr', h⟩ := Option.bind_eq_some_iff.mp h
  obtain rfl : r' = r := Option.some.inj (hr'.symm.trans hr)
  split at h
  · rename_i acked roster hstage
    rw [prepareRound] at h
    split_ifs at h with hcard
    · cases h
      have hall := told_subset_of_card ((hc r' (round?_mem hr)).read acked roster hstage) hcard
      refine hpruned (Finset.mem_sdiff.mpr ⟨hp, fun hstale => ?_⟩)
      exact (Finset.mem_sdiff.mp hstale).2 (hall (List.mem_toFinset.mpr htold))
    · cases h
      exact hpruned hp
  · cases h

/-- Every subscribed process is one that each open round has reached. -/
def Told (c : Channel) : Prop :=
  ∀ r ∈ c.rounds, r.stage ≠ .decided → ∀ p ∈ c.subscribers, p ∈ r.told

theorem step_subscribers (h : c.step e = some c') {p : ProcessId} (hp : p ∈ c'.subscribers) :
    p ∈ c.subscribers ∨ e = .subscribe p := by
  cases e with
  | subscribe q =>
    cases h
    rcases List.mem_cons.mp hp with rfl | hp
    · exact Or.inr rfl
    · exact Or.inl hp
  | join q => cases h; exact Or.inl hp
  | leave q => cases h; exact Or.inl hp
  | disconnect q => cases h; exact Or.inl (List.mem_of_mem_erase hp)
  | publish id =>
    rw [Channel.step] at h
    split_ifs at h
    cases h
    exact Or.inl hp
  | answer id q =>
    obtain ⟨r, -, h⟩ := Option.bind_eq_some_iff.mp h
    split_ifs at h
    cases h
    exact Or.inl hp
  | collect id =>
    obtain ⟨r, -, h⟩ := Option.bind_eq_some_iff.mp h
    split at h <;> cases h
    exact Or.inl hp
  | readRoster id =>
    obtain ⟨r, -, h⟩ := Option.bind_eq_some_iff.mp h
    split at h <;> cases h
    exact Or.inl hp
  | decide id =>
    obtain ⟨r, -, h⟩ := Option.bind_eq_some_iff.mp h
    split at h
    · split at h <;> cases h <;> exact Or.inl hp
    · cases h

theorem step_told (hc : Told c) (h : c.step e = some c') (hlate : NoLateSubscriber c e c') :
    Told c' := by
  intro q hq hopen p hp
  rcases step_rounds h hq with hq | ⟨id, rfl, rfl⟩ | ⟨r, hr, htold, hcase⟩
  · rcases step_subscribers h hp with hp | rfl
    · exact hc q hq hopen p hp
    · exact hlate p rfl q hq hopen
  · rcases step_subscribers h hp with hp | he
    · exact hp
    · cases he
  · rcases step_subscribers h hp with hp | rfl
    · rw [htold]
      refine hc r hr ?_ p hp
      rcases hcase with ⟨_, _, rfl⟩ | ⟨hstage, -⟩ | ⟨acked, hstage, -⟩ | rfl
      · exact hopen
      · rw [hstage]; nofun
      · rw [hstage]; nofun
      · exact absurd rfl hopen
    · rw [Channel.step] at h
      cases h
      exact hlate p rfl q hq hopen

theorem step_reachesSubscribed (hc : Told c) (h : c.step e = some c') : ReachesSubscribed c e c' := by
  rintro id r rfl hr p hp
  obtain ⟨r', hr', h⟩ := Option.bind_eq_some_iff.mp h
  obtain rfl : r' = r := Option.some.inj (hr'.symm.trans hr)
  refine hc r' (round?_mem hr) (fun hstage => ?_) p hp
  rw [hstage] at h
  cases h

/-- In every run of the rounds of a channel no process that was subscribed when a message was
published is pruned, and where no process subscribes in a round whose message has not reached it,
every process that is subscribed at a decision has received the message. -/
theorem rounds_keep_live (subscribers : List ProcessId) (roster : Finset ProcessId)
    (events : List RoundEvent) :
    Always Channel.step PrunesGhosts ⟨subscribers, roster, []⟩ events ∧
      (Always Channel.step NoLateSubscriber ⟨subscribers, roster, []⟩ events →
        Always Channel.step ReachesSubscribed ⟨subscribers, roster, []⟩ events) := by
  constructor
  · refine always_of_preserves (fun c e c' hc h => ⟨step_answered hc h, step_prunesGhosts hc h⟩) ?_ events
    rintro r ⟨⟩
  · intro hlate
    refine hlate.imp (fun c e c' hc h hs => ⟨step_told hc h hs, step_reachesSubscribed hc h⟩) ?_
    rintro r ⟨⟩

/-- A process starts before the message is published. -/
def quietRound : List RoundEvent :=
  [.subscribe "b", .join "b", .publish 1, .answer 1 "a", .answer 1 "b", .collect 1, .readRoster 1,
    .decide 1]

theorem quietRound_reaches :
    (run Channel.step ⟨["a"], {"a", "ghost"}, []⟩ quietRound).isSome = true ∧
      Always Channel.step ReachesSubscribed ⟨["a"], {"a", "ghost"}, []⟩ quietRound := by
  refine ⟨rfl, (rounds_keep_live ["a"] {"a", "ghost"} quietRound).2 ?_⟩
  refine fun _ _ => ⟨fun _ _ r hr => absurd hr List.not_mem_nil, ?_⟩
  refine fun _ _ => ⟨?_, fun _ _ => ⟨?_, fun _ _ => ⟨?_, fun _ _ => ⟨?_, fun _ _ => ⟨?_,
    fun _ _ => ⟨?_, fun _ _ => ⟨?_, trivial⟩⟩⟩⟩⟩⟩⟩
  all_goals rintro p ⟨⟩

/-- A process that starts while the round waits for another one is pruned as a ghost, and the
message has not reached it. -/
theorem lateSubscriber_pruned : ¬ ∀ subscribers roster events,
    Always Channel.step (fun c e c' => PrunesGhosts c e c' ∧ ReachesSubscribed c e c')
      ⟨subscribers, roster, []⟩ events := by
  intro h
  have hlast := (h ["a"] {"a"} ([.publish 1, .subscribe "b", .join "b", .answer 1 "a", .collect 1,
    .readRoster 1] ++ [.decide 1])).last rfl rfl
  exact absurd (hlast.2 1 _ rfl rfl "b" (by decide)) (by decide)

end GiPricing.Deployment
