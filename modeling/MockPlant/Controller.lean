import MockPlant.GatewayServer
import MockPlant.Reports

/-!
The client's deadband. The controller passes an update on to its user unless it moves an
analogue signal by less than the deadband, measured from the last update that was passed
on. So what the user has seen of a signal stays within the deadband of what has come in.
-/
namespace MockPlant.Controller
open MockPlant.Python MockPlant.Contract MockPlant.GatewayServer MockPlant.Reports

/-- One notification of a signal; a bad status comes without a value. -/
structure Update where
  signal : Signal
  value : Option Variant
  status : Status
  sourceTimestamp : Option ℤ
deriving DecidableEq

def ANALOGUE_TYPES : List String := ["Float","Double"]

def analogue (signal : Signal) : Bool :=
  match signal.opcua.type with
  | some type => decide (type ∈ ANALOGUE_TYPES)
  | none => false

/-- `_reported`, the last update passed on of each signal by its name. -/
abbrev Reported := String → Option Update

/-- A variant as an operand of a subtraction. -/
def Variant.number : Variant → Except PyError Value
  | .plain value => .ok value
  | .text _ => .error .typeError

/-- The comparisons of `report` with the last update passed on, up to the first that fails. -/
def noise (deadband : ℚ) (last update : Update) : Except PyError Bool :=
  if analogue update.signal = true ∧ last.status = update.status then
    match last.value, update.value with
    | some before, some now => do
      let x ← Variant.number now
      let y ← Variant.number before
      pure ((x.toFloat.sub y.toFloat).abs.lt (.fin deadband))
    | _, _ => .ok false
  else .ok false

/-- `report`: whether the update is news, and what has been passed on after it. -/
def report (deadband : ℚ) (reported : Reported) (update : Update) : Except PyError (Reported × Bool) := do
  let isNoise ← match reported update.signal.name with
    | some last => noise deadband last update
    | none => pure false
  if isNoise then pure (reported,false)
  else pure (Function.update reported update.signal.name (some update),true)

/-- `watch` forgets what has been passed on. -/
def watched : Reported := fun _ => none

/-- What the sink gets of the notifications, and what has been passed on after them. -/
def notifications (deadband : ℚ) : Reported → List Update → Except PyError (List Update × Reported)
  | reported, [] => .ok ([],reported)
  | reported, update :: rest => do
    let (reported,isNews) ← report deadband reported update
    let (sunk,reported) ← notifications deadband reported rest
    pure (if isNews then update :: sunk else sunk,reported)

/-! ### Updates with numbers -/

/-- The rational that a value stands for. -/
def rational : Option Variant → Option ℚ
  | some (.plain value) => value.toFloat.rat?
  | _ => none

/-- The values of an analogue signal are finite numbers or missing. -/
def Numeric (update : Update) : Prop :=
  analogue update.signal = true → update.value = none ∨ (rational update.value).isSome

/-- Both updates carry numbers, less than the deadband apart. -/
def Within (deadband : ℚ) (last update : Update) : Prop :=
  ∃ a b, rational last.value = some a ∧ rational update.value = some b ∧ |b - a| < deadband

/-- The updates differ by less than the deadband and in nothing else that counts. -/
def Noise (deadband : ℚ) (last update : Update) : Prop :=
  analogue update.signal = true ∧ last.status = update.status ∧ Within deadband last update

theorem rational_eq_some {value : Option Variant} {q : ℚ} (number : rational value = some q) :
    ∃ x : Value, value = some (.plain x) ∧ x.toFloat.rat? = some q := by
  unfold rational at number
  split at number
  · exact ⟨_,rfl,number⟩
  · cases number

/-- Between numeric updates of one signal the comparisons complete, and find noise. -/
theorem noise_numeric (deadband : ℚ) {last update : Update} (same : last.signal = update.signal) (before : Numeric last)
    (now : Numeric update) : ∃ isNoise, noise deadband last update = .ok isNoise ∧
      (isNoise = true ↔ Noise deadband last update) := by
  unfold noise Noise
  split_ifs with comparable
  · obtain ⟨isAnalogue,status⟩ := comparable
    simp only [isAnalogue,status,true_and]
    rcases before (same ▸ isAnalogue) with none | some
    · refine ⟨false,by simp [none],by simp [Within,none,rational]⟩
    · rcases now isAnalogue with none | some'
      · cases last.value <;> exact ⟨false,by simp [none],by simp [Within,none,rational]⟩
      · obtain ⟨a,first⟩ := Option.isSome_iff_exists.mp some
        obtain ⟨b,second⟩ := Option.isSome_iff_exists.mp some'
        obtain ⟨x,found,ratX⟩ := rational_eq_some first
        obtain ⟨y,found',ratY⟩ := rational_eq_some second
        refine ⟨decide (|b - a| < deadband),?_,?_⟩
        · simp [found,found',Variant.number,PyFloat.abs_rat (PyFloat.sub_rat ratY ratX),bind,Except.bind,pure,
            Except.pure]
        · simp [Within,first,second]
  · refine ⟨false,rfl,?_⟩
    constructor
    · simp
    · exact fun ⟨isAnalogue,status,_⟩ => absurd ⟨isAnalogue,status⟩ comparable

/-! ### The controller as a filter -/

/-- `noise` where it completes. -/
def noisy (deadband : ℚ) (last update : Update) : Bool := (noise deadband last update).toOption.getD false

def name (update : Update) : String := update.signal.name

/-- An update of a contract's signal, with a number or nothing if the signal is analogue. -/
def Expected (contract : Contract) (update : Update) : Prop := update.signal ∈ contract.signals ∧ Numeric update

section
variable {contract : Contract} (valid : validate contract = .ok ())
include valid

/-- Signals of a contract are told apart by their names. -/
theorem signal_eq {last update : Update} (before : Expected contract last) (now : Expected contract update)
    (same : name last = name update) : last.signal = update.signal :=
  List.inj_on_of_nodup_map (names_distinct (validate_ok valid).2.1) before.1 now.1 same

theorem noisy_iff (deadband : ℚ) {last update : Update} (before : Expected contract last) (now : Expected contract update)
    (same : name last = name update) : noise deadband last update = .ok (noisy deadband last update) ∧
      (noisy deadband last update = true ↔ Noise deadband last update) := by
  obtain ⟨isNoise,completes,means⟩ := noise_numeric deadband (signal_eq valid before now same) before.2 now.2
  unfold noisy
  rw [completes]
  exact ⟨rfl,means⟩

/-- What is remembered under a name is an expected update of that name. -/
def Remembers (contract : Contract) (reported : Reported) : Prop :=
  ∀ key last, reported key = some last → Expected contract last ∧ name last = key

theorem report_filter {deadband : ℚ} {reported : Reported} (remembers : Remembers contract reported) {update : Update}
    (expected : Expected contract update) : report deadband reported update =
      .ok (remember name (noisy deadband) reported update,news name (noisy deadband) reported update) := by
  cases found : reported (name update) with
  | none =>
    have isNews : news name (noisy deadband) reported update = true := by simp [news,found]
    rw [name] at found
    simp [report,found,remember,isNews,name,bind,Except.bind,pure,Except.pure]
  | some last =>
    obtain ⟨before,same⟩ := remembers _ last found
    have completes := (noisy_iff valid deadband before expected same).1
    have isNews : news name (noisy deadband) reported update = !noisy deadband last update := by simp [news,found]
    rw [name] at found
    simp only [report,found,completes,bind,Except.bind,pure,Except.pure,remember,isNews,name]
    cases noisy deadband last update <;> rfl

omit valid in
theorem Remembers.remember {deadband : ℚ} {reported : Reported} (remembers : Remembers contract reported) {update : Update}
    (expected : Expected contract update) : Remembers contract (remember name (noisy deadband) reported update) := by
  intro key last found
  unfold Reports.remember at found
  split_ifs at found
  · by_cases same : key = name update
    · subst same
      rw [Function.update_self,Option.some.injEq] at found
      subst found
      exact ⟨expected,rfl⟩
    · rw [Function.update_of_ne same] at found
      exact remembers key last found
  · exact remembers key last found

/-- The sink gets what the filter passes. -/
theorem notifications_filter {deadband : ℚ} {reported : Reported} (remembers : Remembers contract reported)
    {updates : List Update} (expected : ∀ u ∈ updates, Expected contract u) : notifications deadband reported updates =
      .ok (passed name (noisy deadband) reported updates,after name (noisy deadband) reported updates) := by
  induction updates generalizing reported with
  | nil => rfl
  | cons update rest ih =>
    obtain ⟨here,later⟩ := List.forall_mem_cons.mp expected
    simp only [notifications,report_filter valid remembers here,ih (remembers.remember here) later,bind,
      Except.bind,pure,Except.pure,passed]
    rfl

omit valid in
theorem remembers_after {deadband : ℚ} {updates : List Update} (expected : ∀ u ∈ updates, Expected contract u) :
    Remembers contract (after name (noisy deadband) watched updates) := by
  induction updates using List.reverseRecOn with
  | nil =>
    intro key last found
    cases found
  | append_singleton updates update ih =>
    rw [after_concat]
    exact (ih (fun u member => expected u (List.mem_append_left _ member))).remember (expected update (by simp))

omit valid in
theorem passed_expected (deadband : ℚ) {updates : List Update} (expected : ∀ u ∈ updates, Expected contract u) :
    ∀ u ∈ passed name (noisy deadband) watched updates, Expected contract u :=
  fun u inside => expected u (mem_of_mem_passed inside)

/-- Among expected updates those of a signal are those of its name. -/
theorem ofKey_signal {updates : List Update} (expected : ∀ u ∈ updates, Expected contract u) {signal : Signal}
    (listed : signal ∈ contract.signals) :
    ofKey name signal.name updates = ofKey Update.signal signal updates := by
  refine List.filter_congr fun u member => ?_
  have same : name u = signal.name ↔ u.signal = signal :=
    ⟨List.inj_on_of_nodup_map (names_distinct (validate_ok valid).2.1) (expected u member).1 listed,congrArg Signal.name⟩
  simp only [same]

/-- The last update passed on of a signal stands for the last one received. -/
theorem last_passed {deadband : ℚ} {updates : List Update} (expected : ∀ u ∈ updates, Expected contract u)
    {signal : Signal} {received : Update} (came : (ofKey Update.signal signal updates).getLast? = some received) :
    ∃ last, (ofKey Update.signal signal (passed name (noisy deadband) watched updates)).getLast? = some last ∧
      last.status = received.status ∧ (last = received ∨ Within deadband last received) := by
  obtain ⟨member,rfl⟩ : received ∈ updates ∧ received.signal = signal := by
    simpa [ofKey] using List.mem_of_getLast? came
  have now := expected received member
  have passedExpected := passed_expected deadband expected
  rw [← ofKey_signal valid expected now.1] at came
  obtain ⟨last,passedOn,near⟩ :
      ∃ last, (ofKey name received.signal.name (passed name (noisy deadband) watched updates)).getLast? = some last ∧
        (last = received ∨ noisy deadband last received = true) := close updates came
  rw [← ofKey_signal valid passedExpected now.1]
  refine ⟨last,passedOn,?_⟩
  rcases near with rfl | isNoise
  · exact ⟨rfl,.inl rfl⟩
  · obtain ⟨inside,same⟩ : last ∈ passed name (noisy deadband) watched updates ∧ name last = received.signal.name := by
      simpa [ofKey] using List.mem_of_getLast? passedOn
    obtain ⟨_,status,within⟩ := (noisy_iff valid deadband (passedExpected last inside) now same).2.mp isNoise
    exact ⟨status,.inr within⟩

/-- An update that changes the status, has no value or is not analogue is news. -/
theorem news_passed {deadband : ℚ} {updates : List Update} (expected : ∀ u ∈ updates, Expected contract u)
    {update : Update} (now : Expected contract update)
    (plain : (∀ received, (ofKey Update.signal update.signal updates).getLast? = some received →
      received.status ≠ update.status) ∨ update.value = none ∨ analogue update.signal = false) :
    news name (noisy deadband) (after name (noisy deadband) watched updates) update = true := by
  unfold news
  cases remembered : after name (noisy deadband) watched updates (name update) with
  | none => rfl
  | some last =>
    obtain ⟨before,same⟩ := remembers_after expected _ last remembered
    simp only [Bool.not_eq_true']
    by_contra isNoise
    obtain ⟨isAnalogue,status,a,b,_,value,_⟩ :=
      (noisy_iff valid deadband before now same).2.mp (Bool.not_eq_false _ ▸ isNoise)
    rcases plain with changed | missing | other
    · -- The last update received of the signal has the status of the one remembered.
      have stands : (ofKey name (name update) (passed name (noisy deadband) watched updates)).getLast? = some last :=
        (after_eq_last updates (name update)).symm.trans remembered
      have passedExpected := passed_expected deadband expected
      rw [name,ofKey_signal valid passedExpected now.1] at stands
      have came : last ∈ ofKey Update.signal update.signal updates := by
        have inside := List.mem_filter.mp (List.mem_of_getLast? stands)
        exact List.mem_filter.mpr ⟨mem_of_mem_passed inside.1,inside.2⟩
      obtain ⟨received,receivedLast⟩ := Option.isSome_iff_exists.mp (List.getLast?_isSome.mpr (List.ne_nil_of_mem came))
      obtain ⟨last',stands',same',_⟩ := last_passed valid expected receivedLast
      cases stands.symm.trans stands'
      exact changed received receivedLast (same'.symm.trans status)
    · simp [missing,rational] at value
    · simp [other] at isAnalogue

/-- Neighbours passed on of an analogue signal, of one status and with numbers, are a
    deadband apart. -/
theorem passed_apart {deadband : ℚ} {updates : List Update} (expected : ∀ u ∈ updates, Expected contract u)
    {signal : Signal} (isAnalogue : analogue signal = true) :
    (ofKey Update.signal signal (passed name (noisy deadband) watched updates)).IsChain (fun last next =>
      last.status = next.status → ∀ a b, rational last.value = some a → rational next.value = some b →
        deadband ≤ |b - a|) := by
  have passedExpected := passed_expected deadband expected
  cases passedOn : ofKey Update.signal signal (passed name (noisy deadband) watched updates) with
  | nil => exact List.IsChain.nil
  | cons first rest =>
    have member (u : Update) (inside : u ∈ first :: rest) : Expected contract u ∧ u.signal = signal := by
      rw [← passedOn] at inside
      obtain ⟨inPassed,same⟩ := List.mem_filter.mp inside
      exact ⟨passedExpected u inPassed,of_decide_eq_true same⟩
    have listed : signal ∈ contract.signals := by
      obtain ⟨⟨known,_⟩,rfl⟩ := member first (by simp)
      exact known
    have chain : (ofKey name signal.name (passed name (noisy deadband) watched updates)).IsChain
        (fun last next => noisy deadband last next = false) := apart updates signal.name
    rw [ofKey_signal valid passedExpected listed,passedOn] at chain
    refine chain.imp_of_mem_imp fun last next before now quiet status a b first second => ?_
    obtain ⟨expectedLast,sameLast⟩ := member last before
    obtain ⟨expectedNext,sameNext⟩ := member next now
    by_contra near
    have isNoise := (noisy_iff valid deadband expectedLast expectedNext
      (congrArg Signal.name (sameLast.trans sameNext.symm))).2.mpr
      ⟨by rw [sameNext]; exact isAnalogue,status,a,b,first,second,not_le.mp near⟩
    simp [quiet] at isNoise

/-- What the user of the controller has seen since it watches: of every signal the last
    update passed on has the status of the last one received and is that one or within the
    deadband of it; a new status, a missing value and any other signal is always news; and
    neighbours passed on of an analogue signal are a deadband apart. -/
theorem deadband_honest (deadband : ℚ) {updates : List Update} (expected : ∀ u ∈ updates, Expected contract u) :
    ∃ sunk reported, notifications deadband watched updates = .ok (sunk,reported) ∧
      (∀ signal received, (ofKey Update.signal signal updates).getLast? = some received →
        ∃ last, (ofKey Update.signal signal sunk).getLast? = some last ∧ last.status = received.status ∧
          (last = received ∨ Within deadband last received)) ∧
      (∀ update, Expected contract update → ∃ reported' isNews, report deadband reported update = .ok (reported',isNews) ∧
        ((∀ received, (ofKey Update.signal update.signal updates).getLast? = some received →
            received.status ≠ update.status) ∨ update.value = none ∨ analogue update.signal = false → isNews = true)) ∧
      ∀ signal, analogue signal = true → (ofKey Update.signal signal sunk).IsChain (fun last next =>
        last.status = next.status → ∀ a b, rational last.value = some a → rational next.value = some b →
          deadband ≤ |b - a|) := by
  have nothing : Remembers contract watched := by
    rintro key last ⟨⟩
  refine ⟨_,_,notifications_filter valid nothing expected,?_,?_,?_⟩
  · exact fun signal received came => last_passed valid expected came
  · intro update now
    exact ⟨_,_,report_filter valid (remembers_after expected) now,news_passed valid expected now⟩
  · exact fun signal isAnalogue => passed_apart valid expected isAnalogue

end

def reading (q : ℚ) (status : Status) : Update := ⟨Shipped.actualSpeed,some (.plain (.float (.fin q))),status,none⟩

/-- A drift in steps below the deadband of the shipped client, with a bad poll in between. -/
theorem deadband_honest_drift :
    let updates := [reading 1 .good,reading (1005 / 1000) .good,reading (1012 / 1000) .good,
      ⟨Shipped.actualSpeed,none,.badCommunicationError,none⟩,reading (1012 / 1000) .good]
    ∃ sunk reported, notifications (1 / 100) watched updates = .ok (sunk,reported) ∧
      sunk = [reading 1 .good,reading (1012 / 1000) .good,⟨Shipped.actualSpeed,none,.badCommunicationError,none⟩,
        reading (1012 / 1000) .good] ∧
      ∀ signal received, (ofKey Update.signal signal updates).getLast? = some received →
        ∃ last, (ofKey Update.signal signal sunk).getLast? = some last ∧ last.status = received.status ∧
          (last = received ∨ Within (1 / 100) last received) := by
  intro updates
  have expected : ∀ u ∈ updates, Expected Shipped.tags u := by
    have listed : Shipped.actualSpeed ∈ Shipped.tags.signals := by decide +kernel
    simp only [updates,List.forall_mem_cons]
    exact ⟨⟨listed,fun _ => .inr rfl⟩,⟨listed,fun _ => .inr rfl⟩,⟨listed,fun _ => .inr rfl⟩,⟨listed,fun _ => .inl rfl⟩,
      ⟨listed,fun _ => .inr rfl⟩,by simp⟩
  obtain ⟨sunk,reported,notified,stands,_⟩ := deadband_honest
    (by decide +kernel : validate Shipped.tags = .ok ()) (1 / 100) expected
  refine ⟨sunk,reported,notified,?_,stands⟩
  have evaluated : (notifications (1 / 100) watched updates).map Prod.fst = .ok [reading 1 .good,
      reading (1012 / 1000) .good,⟨Shipped.actualSpeed,none,.badCommunicationError,none⟩,reading (1012 / 1000) .good] := by
    decide +kernel
  rw [notified] at evaluated
  exact Except.ok.inj evaluated

end MockPlant.Controller
