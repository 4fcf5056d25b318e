import MockPlant.Pacing
import MockPlant.ScanLoop
import MockPlant.WholePlant

/-!
The gateway's poll loop by the clock. A round polls every signal of the contract, passes the
readings on and sleeps for what is left of the period, so rounds never start closer than a
period apart, and a round that takes longer than the period only puts the next one off.
Whatever a round takes at most, there is a bound on the age of what has been passed on.
-/
namespace MockPlant.PollLoop
open MockPlant.Python MockPlant.Contract MockPlant.GatewayServer MockPlant.Loops MockPlant.Pacing MockPlant.WholePlant

/-! ### The loop -/

/-- What a call of `run` meets: the readings of its clock, two to a round, and what becomes
    of the polls of each round. A poll that comes to anything is a reading of its signal. -/
structure Surroundings (contract : Contract) where
  time : ℕ → ℚ
  polls : ℕ → { s // s ∈ contract.signals } → Except PyError (Reading contract)
  ordered : Monotone time
  own : ∀ k s reading, polls k s = .ok reading → reading.signal = s.1

/-- A call of `asyncio.sleep`, after a round. -/
structure Sleep where
  round : ℕ
  seconds : ℚ
deriving DecidableEq

/-- `run` at the head of its loop, with the readings passed on, the rounds and the sleeps so far. -/
structure Polling (σ : Type) (contract : Contract) where
  state : σ
  sunk : List (Reading contract) := []
  rounds : ℕ := 0
  sleeps : List Sleep := []

section
variable {σ : Type} {contract : Contract} (period : ℚ) (env : Surroundings contract)
  (sink : σ → Reading contract → Except PyError σ)

def Surroundings.start (k : ℕ) : ℚ := env.time (2 * k)
def Surroundings.finish (k : ℕ) : ℚ := env.time (2 * k + 1)

/-- `poll_once` -/
def pollOnce (k : ℕ) : Except PyError (List (Reading contract)) := contract.signals.attach.mapM (env.polls k)

/-- One turn of the loop in `run`. -/
def turn (p : Polling σ contract) : Except PyError (ForInStep (Polling σ contract)) := do
  let started := env.start p.rounds
  let readings ← pollOnce env p.rounds
  let state ← readings.foldlM sink p.state
  let elapsed := env.finish p.rounds - started
  return .yield {
    state
    sunk := p.sunk ++ readings
    rounds := p.rounds + 1
    sleeps := p.sleeps ++ [⟨p.rounds,max 0 (period - elapsed)⟩] }

/-- `run`, cut after a number of rounds. -/
def run (rounds : ℕ) (s : σ) : Except PyError (ForInStep (Polling σ contract)) :=
  loop (turn period env sink) rounds { state := s }

/-- No sleep has been cut short. -/
def Rested (p : Polling σ contract) : Prop :=
  ∀ sleep ∈ p.sleeps, env.finish sleep.round + sleep.seconds ≤ env.start (sleep.round + 1)

/-- No sleep has been longer than asked for by more than this. -/
def Prompt (lateness : ℚ) (p : Polling σ contract) : Prop :=
  ∀ sleep ∈ p.sleeps, env.start (sleep.round + 1) ≤ env.finish sleep.round + sleep.seconds + lateness

instance (p : Polling σ contract) : Decidable (Rested env p) := inferInstanceAs (Decidable (∀ sleep ∈ p.sleeps, _))

instance (lateness : ℚ) (p : Polling σ contract) : Decidable (Prompt env lateness p) :=
  inferInstanceAs (Decidable (∀ sleep ∈ p.sleeps, _))

/-! ### What the rounds do -/

variable {period env sink}

theorem turn_cases {p : Polling σ contract} {outcome : ForInStep (Polling σ contract)}
    (turned : turn period env sink p = .ok outcome) : ∃ readings state, pollOnce env p.rounds = .ok readings ∧
      readings.foldlM sink p.state = .ok state ∧ outcome = .yield {
        state
        sunk := p.sunk ++ readings
        rounds := p.rounds + 1
        sleeps := p.sleeps ++ [⟨p.rounds,max 0 (period - (env.finish p.rounds - env.start p.rounds))⟩] } := by
  obtain ⟨readings,polled,turned⟩ := bind_eq_ok.mp turned
  obtain ⟨state,sank,turned⟩ := bind_eq_ok.mp turned
  cases turned
  exact ⟨readings,state,polled,sank,rfl⟩

/-- A round polls the signals of the contract in its order. -/
theorem pollOnce_signals {k : ℕ} {readings : List (Reading contract)} (polled : pollOnce env k = .ok readings) :
    readings.map Reading.signal = contract.signals := by
  have each : ∀ (signals : List { s // s ∈ contract.signals }) (readings : List (Reading contract)),
      signals.mapM (env.polls k) = .ok readings → readings.map Reading.signal = signals.map Subtype.val := by
    intro signals
    induction signals with
    | nil =>
      intro readings polled
      cases polled
      rfl
    | cons s rest ih =>
      intro readings polled
      rw [List.mapM_cons] at polled
      obtain ⟨reading,here,polled⟩ := bind_eq_ok.mp polled
      obtain ⟨others,later,polled⟩ := bind_eq_ok.mp polled
      cases polled
      simp only [List.map_cons,env.own k s reading here,ih others later]
  rw [each _ readings polled,List.attach_map_subtype_val]

/-- What the rounds so far have passed on, and how long each one slept. -/
structure Whole (period : ℚ) (env : Surroundings contract) (sink : σ → Reading contract → Except PyError σ) (s : σ)
    (p : Polling σ contract) : Prop where
  signals : p.sunk.map Reading.signal = (List.replicate p.rounds contract.signals).flatten
  state : p.sunk.foldlM sink s = .ok p.state
  slept : ∀ i < p.rounds, ⟨i,max 0 (period - (env.finish i - env.start i))⟩ ∈ p.sleeps

theorem run_whole {n : ℕ} {s : σ} {outcome : ForInStep (Polling σ contract)} (ran : run period env sink n s = .ok outcome) :
    ∃ p, outcome = .yield p ∧ Whole period env sink s p := by
  have holds : Outcome (fun _ => False) (Whole period env sink s) outcome := by
    refine loop_induction ran ⟨rfl,rfl,by simp⟩ ?_
    intro p outcome whole turned
    obtain ⟨readings,state,polled,sank,rfl⟩ := turn_cases turned
    refine ⟨?_,?_,fun i made => ?_⟩
    · rw [List.map_append,whole.signals,pollOnce_signals polled,List.replicate_succ',List.flatten_append]
      simp
    · rw [List.foldlM_append]
      exact bind_eq_ok.mpr ⟨p.state,whole.state,sank⟩
    · rcases Nat.lt_succ_iff_lt_or_eq.mp made with earlier | rfl
      · exact List.mem_append_left _ (whole.slept i earlier)
      · simp
  cases outcome with
  | done p => exact absurd holds id
  | yield p => exact ⟨p,rfl,holds⟩

/-- Every turn is a round. -/
theorem loop_rounds {n : ℕ} {p q : Polling σ contract} (looped : loop (turn period env sink) n p = .ok (.yield q)) :
    q.rounds = p.rounds + n := by
  induction n generalizing p with
  | zero =>
    cases looped
    rfl
  | succ n ih =>
    rcases loop_succ_ok.mp looped with ⟨_,_,no⟩ | ⟨t,turned,later⟩
    · cases no
    · obtain ⟨readings,state,_,_,same⟩ := turn_cases turned
      cases same
      rw [ih later]
      dsimp only
      ring

/-! ### When the rounds are -/

section
variable {s : σ} {p : Polling σ contract} (whole : Whole period env sink s p)
include whole

/-- Rounds start at least a period apart. -/
theorem Whole.spaced (rested : Rested env p) : Spaced env.start period p.rounds := by
  intro i made
  have resumed := rested _ (whole.slept i made)
  have least := le_max_right 0 (period - (env.finish i - env.start i))
  linarith

/-- If no round takes longer than a time, the next one ends within that time of it and the longer of
    the time and the period. -/
theorem Whole.steady {longest lateness : ℚ} (bounded : ∀ i < p.rounds, env.finish i ≤ env.start i + longest)
    (prompt : Prompt env lateness p) {i : ℕ} (made : i + 1 < p.rounds) :
    env.finish (i + 1) ≤ env.start i + max period longest + lateness + longest := by
  have before : i < p.rounds := Nat.lt_of_succ_lt made
  have resumed := prompt _ (whole.slept i before)
  have here := bounded i before
  have next := bounded (i + 1) made
  have most : env.finish i + max 0 (period - (env.finish i - env.start i)) ≤ env.start i + max period longest := by
    rcases max_cases 0 (period - (env.finish i - env.start i)) with ⟨none,_⟩ | ⟨some,_⟩
    · rw [none]
      linarith [le_max_right period longest]
    · rw [some]
      linarith [le_max_left period longest]
  linarith

end

/-- The loop goes on until a poll or the sink raises, and passes on the signals of the contract in their
    order, round by round. Its rounds start at least a period apart. If no round takes longer than a
    time and no sleep is late by more than another, then from the end of the first round on the newest
    round that has been passed on whole has started no longer ago than the longer of that time and
    the period, the lateness and that time together. -/
theorem poll_paced {n : ℕ} {s : σ} {outcome : ForInStep (Polling σ contract)} (ran : run period env sink n s = .ok outcome) :
    ∃ p, outcome = .yield p ∧ p.sunk.map Reading.signal = (List.replicate n contract.signals).flatten ∧
      p.sunk.foldlM sink s = .ok p.state ∧ (Rested env p → Spaced env.start period n) ∧
      ∀ longest lateness, (∀ i < n, env.finish i ≤ env.start i + longest) → 0 ≤ lateness → Prompt env lateness p →
        ∀ t, 0 < n → env.finish 0 ≤ t → t ≤ env.finish (n - 1) →
          ∃ i < n, env.finish i ≤ t ∧ t ≤ env.start i + max period longest + lateness + longest := by
  obtain ⟨p,rfl,whole⟩ := run_whole ran
  have rounds : p.rounds = n := by simpa using loop_rounds ran
  subst rounds
  refine ⟨p,rfl,whole.signals,whole.state,whole.spaced,?_⟩
  intro longest lateness bounded late prompt t some first last
  obtain ⟨i,bound,passed,ends⟩ := last_passed first (p.rounds - 1)
  have made : i < p.rounds := by omega
  refine ⟨i,made,passed,?_⟩
  by_cases newest : i + 1 < p.rounds
  · have ahead : t < env.finish (i + 1) := ends.resolve_left (by omega)
    exact ahead.le.trans (whole.steady bounded prompt newest)
  · obtain rfl : i = p.rounds - 1 := by omega
    have here := bounded _ made
    have started : env.start (p.rounds - 1) ≤ env.finish (p.rounds - 1) := env.ordered (Nat.le_succ _)
    linarith [le_max_right period longest]

end

/-! ### The gateway's loop -/

/-- `publish` as the sink. -/
def publishing {ν : Type} [DecidableEq ν] (gateway : Gateway ν) (s : GatewayServer.State ν) (reading : Reading gateway.contract) :
    Except PyError (GatewayServer.State ν) :=
  let (state,outcome) := publish gateway s reading
  outcome.map fun _ => state

/-- Three rounds of the shipped gateway at a booted PLC: the second gets no answer and takes longer
    than the period, and a sleep is a millisecond late. -/
def shippedRounds : Surroundings shippedSite.gateway.contract where
  time := (ScanLoop.clock [20,80,130,1,9,91]).monotonic
  polls k s := ({} : World shippedSite).poll (k ≠ 1) s
  ordered := (ScanLoop.clock [20,80,130,1,9,91]).ordered
  own _ _ _ polled := congrArg Subtype.val (poll_signal polled)

theorem shipped_poll_paced : ∃ p, run (1 / 10) shippedRounds (publishing shippedSite.gateway) 3 {} = .ok (.yield p) ∧
    p.sunk.map Reading.signal = (List.replicate 3 Shipped.tags.signals).flatten ∧
    Spaced shippedRounds.start (1 / 10) 3 ∧
    ∃ i < 3, shippedRounds.finish i ≤ 229 / 1000 ∧ 229 / 1000 ≤ shippedRounds.start i + 261 / 1000 := by
  have runs : (do
      let outcome ← (run (1 / 10) shippedRounds (publishing shippedSite.gateway) 3 {}).toOption
      guard (Rested shippedRounds outcome.value ∧ Prompt shippedRounds (1 / 1000) outcome.value)).isSome := by
    decide +kernel
  obtain ⟨_,runs⟩ := Option.isSome_iff_exists.mp runs
  obtain ⟨outcome,ran,kept⟩ := Option.bind_eq_some_iff.mp runs
  obtain ⟨rested,prompt⟩ := (Option.guard_eq_some' _).mp kept
  obtain ⟨p,rfl,signals,_,spaced,fresh⟩ := poll_paced (toOption_eq_ok.mp ran)
  refine ⟨p,toOption_eq_ok.mp ran,signals,spaced rested,?_⟩
  obtain ⟨i,made,passed,age⟩ := fresh (13 / 100) (1 / 1000) (by decide +kernel) (by norm_num) prompt (229 / 1000) (by decide)
    (by decide +kernel) (by decide +kernel)
  exact ⟨i,made,passed,age.trans (by norm_num [add_assoc])⟩

end MockPlant.PollLoop
