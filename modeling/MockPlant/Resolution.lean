import MockPlant.AddressSpace

/-!
How the client finds the nodes. It shares with the gateway the contract and the names of the
plant and of the methods, and takes a signal's name apart at every dot, where the gateway
takes it apart at the last one. Both mean the same node as long as there is no second dot and
nothing else of the plant has the name.
-/
namespace MockPlant.Resolution
open MockPlant.Python MockPlant.Contract MockPlant.Browse MockPlant.AddressSpace

/-! ### Resolving -/

/-- The names of `CmdCode`. -/
def codeName : CmdCode → String
  | .none => "NONE"
  | .start => "START"
  | .stop => "STOP"
  | .cncStart => "CNC_START"
  | .cncReset => "CNC_RESET"

def capitalize : List Char → List Char
  | [] => []
  | c :: rest => c.toUpper :: rest.map Char.toLower

/-- `method_name` -/
def methodName (code : CmdCode) : String := String.ofList (((codeName code).toList.splitOn '_').flatMap capitalize)

/-- The codes that are no `NONE`. -/
def codes : List CmdCode := [.start,.stop,.cncStart,.cncReset]

/-- The maps of the controller, the newest entry of a key first. -/
structure Found (ν : Type) where
  nodes : List (String × ν) := []
  signals : List (ν × Signal) := []
  methods : List (String × ν) := []

/-- `_path` -/
def path (names : List String) : List QName := names.map qname

/-- The path of a signal's value from the plant. -/
def signalPath (signal : Signal) : List QName :=
  if signal.opcua.states.isSome then path (split signal.name) ++ [currentState] else path (split signal.name)

section
variable {ν : Type} (lib : Library ν) (space : List (Node ν QName))

def resolveSignal (plant : ν) (found : Found ν) (signal : Signal) : Except PyError (Found ν) := do
  let node ← lib.getChild space plant (signalPath signal)
  pure { found with nodes := (signal.name,node) :: found.nodes, signals := (node,signal) :: found.signals }

def resolveMethod (plant : ν) (found : Found ν) (code : CmdCode) : Except PyError (Found ν) := do
  let node ← lib.getChild space plant (path [methodName code])
  pure { found with methods := (methodName code,node) :: found.methods }

/-- `_resolve`, over what was found for earlier sessions. -/
def resolve (contract : Contract) (found : Found ν) : Except PyError (Found ν) := do
  let plant ← lib.getChild space lib.objects (path ["Plant"])
  let found ← contract.signals.foldlM (resolveSignal lib space plant) found
  codes.foldlM (resolveMethod lib space plant) found

end

/-! ### Loops that record what they find -/

section
variable {α β ρ κ ω : Type} {f : α → Except PyError β} {update : ρ → α → β → ρ}

/-- A loop whose every search succeeds succeeds. -/
theorem foldlM_total {l : List α} (every : ∀ x ∈ l, ∃ y, f x = .ok y) (r : ρ) :
    ∃ r', l.foldlM (fun r x => do let y ← f x; pure (update r x y)) r = .ok r' := by
  induction l generalizing r with
  | nil => exact ⟨r,rfl⟩
  | cons x rest ih =>
    obtain ⟨⟨y,here⟩,later⟩ := List.forall_mem_cons.mp every
    rw [List.foldlM_cons,here]
    exact ih later (update r x y)

/-- What a loop has recorded of an element stands, if no later element is recorded over it. -/
theorem foldlM_recorded (look : ρ → κ → Option ω) (key : α → β → κ) (value : α → β → ω)
    (own : ∀ r x y, look (update r x y) (key x y) = some (value x y))
    (others : ∀ r x y k, k ≠ key x y → look (update r x y) k = look r k) {l : List α}
    (apart : l.Pairwise (fun x z => ∀ y w, f x = .ok y → f z = .ok w → key x y ≠ key z w)) {r r' : ρ}
    (looped : l.foldlM (fun r x => do let y ← f x; pure (update r x y)) r = .ok r') :
    ∀ x ∈ l, ∃ y, f x = .ok y ∧ look r' (key x y) = some (value x y) := by
  induction l using List.reverseRecOn generalizing r' with
  | nil => simp
  | append_singleton l last ih =>
    rw [List.foldlM_append] at looped
    obtain ⟨before,earlier,looped⟩ := bind_eq_ok.mp looped
    obtain ⟨r'',here,looped⟩ := bind_eq_ok.mp looped
    obtain ⟨y,found,here⟩ := bind_eq_ok.mp here
    cases here
    cases looped
    rw [List.pairwise_append] at apart
    intro x member
    rcases List.mem_append.mp member with early | late
    · obtain ⟨z,found',stands⟩ := ih apart.1 earlier x early
      refine ⟨z,found',?_⟩
      rw [others _ _ _ _ (apart.2.2 x early last (by simp) z y found' found),stands]
    · rw [List.mem_singleton.mp late]
      exact ⟨y,found,own _ _ _⟩

end

/-! ### Where the nodes hang -/

/-- The browse names under the plant. -/
def plantNames (contract : Contract) : List String :=
  ((contract.signals.map deviceName).filter (· ≠ "")).dedup ++
    ((contract.signals.filter (fun s => deviceName s = "")).map browseName ++ commands.map Prod.fst)

/-- No two things under the plant have one name. -/
def Unshared (contract : Contract) : Prop := (plantNames contract).Nodup

instance (contract : Contract) : Decidable (Unshared contract) := inferInstanceAs (Decidable (List.Nodup _))

section
variable {contract : Contract} (unshared : Unshared contract)
include unshared

theorem Unshared.signals {s t : Signal} (first : s ∈ contract.signals) (second : t ∈ contract.signals) (top : deviceName s = "")
    (top' : deviceName t = "") (same : browseName s = browseName t) : s = t := by
  have names := ((List.nodup_append.mp (List.nodup_append.mp unshared).2.1)).1
  exact List.inj_on_of_nodup_map names (by simp [first,top]) (by simp [second,top']) same

theorem Unshared.device {s t : Signal} (first : s ∈ contract.signals) (second : t ∈ contract.signals) (top : deviceName s = "")
    (below : deviceName t ≠ "") : deviceName t ≠ browseName s := by
  refine (List.nodup_append.mp unshared).2.2 _ ?_ _ ?_
  · rw [List.mem_dedup,List.mem_filter,List.mem_map]
    exact ⟨⟨t,second,rfl⟩,by simpa using below⟩
  · exact List.mem_append_left _ (List.mem_map_of_mem (by simp [first,top]))

theorem Unshared.command {name : String} (named : name ∈ commands.map Prod.fst) {s : Signal} (member : s ∈ contract.signals) :
    (deviceName s ≠ "" → deviceName s ≠ name) ∧ (deviceName s = "" → browseName s ≠ name) := by
  constructor
  · refine fun below => (List.nodup_append.mp unshared).2.2 _ ?_ _ (List.mem_append_right _ named)
    rw [List.mem_dedup,List.mem_filter,List.mem_map]
    exact ⟨⟨s,member,rfl⟩,by simpa using below⟩
  · exact fun top => (List.nodup_append.mp (List.nodup_append.mp unshared).2.1).2.2 _
      (List.mem_map_of_mem (by simp [member,top])) _ named

end

section
variable {ν : Type} {lib : Library ν} {contract : Contract} {b : Built ν}
  (laid : Laid lib contract.signals contract.signals b)
include laid

theorem plant_below : plant lib ≠ lib.objects := laid.below _ laid.root

/-- What hangs off something other than the Objects folder is not the plant. -/
theorem ne_plant {x parent : ν} {name : QName} (member : ⟨x,parent,name⟩ ∈ b.space) (hung : parent ≠ lib.objects) :
    x ≠ plant lib := by
  rintro rfl
  exact hung (congrArg Node.parent (node_unique laid.distinct member laid.root rfl))

/-- A signal hangs off the plant, or off its device. -/
theorem hung_cases {s : Signal} {parent : ν} (hung : Parent lib b s parent) :
    deviceName s = "" ∧ parent = plant lib ∨
      deviceName s ≠ "" ∧ parent ≠ plant lib ∧ ⟨parent,plant lib,qname (deviceName s)⟩ ∈ b.space := by
  unfold Parent at hung
  split_ifs at hung with top
  · exact .inl ⟨top,hung⟩
  · obtain ⟨_,member⟩ := laid.device _ _ hung
    exact .inr ⟨top,ne_plant laid member (plant_below laid),member⟩

theorem hung_below {s : Signal} {parent : ν} (hung : Parent lib b s parent) : parent ≠ lib.objects := by
  rcases hung_cases laid hung with ⟨_,rfl⟩ | ⟨_,_,member⟩
  · exact plant_below laid
  · exact laid.below _ member

/-- The base of a signal hangs where the signal is to. -/
theorem base_hung {s : Signal} (listed : s ∈ contract.signals) {base : ν} (based : Base b s base) :
    base ≠ plant lib ∧ ∃ parent, Parent lib b s parent ∧ ⟨base,parent,qname (browseName s)⟩ ∈ b.space := by
  obtain ⟨base',parent,based',hung,member⟩ := laid.signal s listed
  cases base_unique laid.distinct based based'
  exact ⟨ne_plant laid member (hung_below laid hung),parent,hung,member⟩

theorem plant_alone : Alone b.space ⟨plant lib,lib.objects,qname "Plant"⟩ := by
  refine ⟨laid.root,fun m member parent _ => ?_⟩
  cases laid.place m member with
  | plant => rfl
  | device => exact absurd parent (plant_below laid)
  | signal listed based hung => exact absurd parent (hung_below laid hung)
  | inner listed based =>
    obtain ⟨_,_,_,inside⟩ := base_hung laid listed based
    exact absurd parent (laid.below _ inside)
  | method => exact absurd parent (plant_below laid)

/-- Only the plant's own devices, signals and methods hang off it. -/
theorem under_plant {m : Node ν QName} (member : m ∈ b.space) (parent : m.parent = plant lib) :
    (∃ s ∈ contract.signals, deviceName s ≠ "" ∧ m.name = qname (deviceName s) ∧ b.devices.lookup (deviceName s) = some m.id) ∨
      (∃ s ∈ contract.signals, deviceName s = "" ∧ m.name = qname (browseName s) ∧ Base b s m.id) ∨
      ∃ command ∈ commands, m.name = qname command.1 ∧ m.id = lib.named ("Plant." ++ command.1) := by
  cases laid.place m member with
  | plant => exact absurd parent.symm (plant_below laid)
  | @device name id found =>
    obtain ⟨nonempty,_⟩ := laid.device name id found
    obtain ⟨s,listed,rfl⟩ := laid.listed name id found
    exact .inl ⟨s,listed,nonempty,rfl,found⟩
  | @signal s base parent listed based hung =>
    rcases hung_cases laid hung with ⟨top,_⟩ | ⟨_,other,_⟩
    · exact .inr (.inl ⟨s,listed,top,rfl,based⟩)
    · exact absurd parent other
  | inner listed based => exact absurd parent (base_hung laid listed based).1
  | method listed => exact .inr (.inr ⟨_,listed,rfl,rfl⟩)

/-- Only the state of a state machine has its name. -/
theorem state_alone {s : Signal} (listed : s ∈ contract.signals) {base nodeId : ν} (based : Base b s base)
    (known : b.nodeIds.lookup s.name = some nodeId) (member : ⟨nodeId,base,currentState⟩ ∈ b.space) :
    Alone b.space ⟨nodeId,base,currentState⟩ := by
  refine ⟨member,fun m inside parent name => node_unique laid.distinct inside member ?_⟩
  cases laid.place m inside with
  | plant | device | signal | method => cases name
  | @inner t _ listed' based' value =>
    rw [parent] at based'
    cases laid.based t listed' s listed base based' based
    cases (value name).symm.trans known
    rfl

end

/-! ### Names -/

theorem ofList_ne_empty {text : List Char} : String.ofList text ≠ "" ↔ text ≠ [] := by
  rw [ne_eq,ne_eq,← String.toList_inj,String.toList_ofList]
  rfl

/-- A well-formed name has no dot, or one dot between two parts. -/
theorem wellNamed_cases {s : Signal} (named : WellNamed s.name) :
    deviceName s = "" ∧ browseName s = s.name ∧ split s.name = [s.name] ∨
      ∃ front leaf, s.name.toList = front ++ '.' :: leaf ∧ '.' ∉ front ∧ '.' ∉ leaf ∧ deviceName s = String.ofList front ∧
        deviceName s ≠ "" ∧ browseName s = String.ofList leaf ∧ leaf ≠ [] ∧ split s.name = [deviceName s,browseName s] := by
  by_cases dotted : '.' ∈ s.name.toList
  · obtain ⟨front,leaf,whole,dotless⟩ := last_dot dotted
    have parts := split_dotted whole dotless
    have device : deviceName s = String.ofList front := by rw [deviceName,rpartition_dotted whole dotless]
    rw [WellNamed,parts] at named
    obtain ⟨short,nonempty⟩ := named
    have leafNonempty : leaf ≠ [] := ofList_ne_empty.mp (nonempty _ (by simp))
    have browse : browseName s = String.ofList leaf := by
      simp only [browseName,rpartition_dotted whole dotless,if_neg (ofList_ne_empty.mpr leafNonempty)]
    have one : '.' ∉ front := by
      intro dotted'
      obtain ⟨front',leaf',whole',dotless'⟩ := last_dot dotted'
      have more := split_dotted
        (by rw [String.toList_ofList,whole'] : (String.ofList front).toList = front' ++ '.' :: leaf') dotless'
      have some : 0 < (split (String.ofList front')).length := by
        rw [split,List.length_map]
        exact List.length_pos_iff.mpr (List.splitOn_ne_nil _ _)
      simp only [more,List.length_append,List.length_singleton] at short
      omega
    have single : split (String.ofList front) = [String.ofList front] := split_dotless (by rwa [String.toList_ofList])
    refine .inr ⟨front,leaf,whole,one,dotless,device,?_,browse,leafNonempty,?_⟩
    · rw [device]
      exact nonempty _ (by simp [single])
    · rw [parts,single,device,browse]
      rfl
  · refine .inl ⟨?_,?_,split_dotless dotted⟩
    · rw [deviceName,rpartition_dotless dotted]
    · simp [browseName,rpartition_dotless dotted]

/-- What hangs off a device under a name of its own has the whole name. -/
theorem name_eq {s t : Signal} {front leaf : List Char} (whole : s.name.toList = front ++ '.' :: leaf) (dotless : '.' ∉ leaf)
    (nonempty : leaf ≠ []) (device : deviceName t = String.ofList front) (below : deviceName t ≠ "")
    (browse : browseName t = String.ofList leaf) : t.name = s.name := by
  have dotted : '.' ∈ t.name.toList := by
    by_contra dotless'
    rw [deviceName,rpartition_dotless dotless'] at below
    exact below rfl
  obtain ⟨front',leaf',whole',dotless'⟩ := last_dot dotted
  simp only [deviceName,browseName,rpartition_dotted whole' dotless',String.ofList_inj] at device browse
  subst device
  split_ifs at browse with empty
  · rw [browse,String.toList_ofList] at dotted
    exact absurd dotted dotless
  · rw [String.ofList_inj] at browse
    subst browse
    exact String.toList_inj.mp (whole'.trans whole.symm)

/-! ### What the paths lead to -/

section
variable {ν : Type} [DecidableEq ν] {lib : Library ν} {contract : Contract} {b : Built ν}
  (laid : Laid lib contract.signals contract.signals b)
include laid

omit laid in
theorem getChild_only {space : List (Node ν QName)} {path : List QName} {start x : ν}
    (only : targets space path start = [x]) : lib.getChild space start path = .ok x := by
  obtain ⟨leads,nowhere⟩ := leads_only only
  exact lib.child _ _ _ _ leads nowhere

theorem reaches_plant : lib.getChild b.space lib.objects (path ["Plant"]) = .ok (plant lib) := by
  refine getChild_only ?_
  rw [path,List.map_singleton,targets_singleton]
  exact (plant_alone laid).children laid.distinct

variable (names : (contract.signals.map Signal.name).Nodup) (unshared : Unshared contract)
include names unshared

/-- The path of a well-formed name leads to the variable or the machine of the signal, and nowhere else. -/
theorem reaches_base {s : Signal} (listed : s ∈ contract.signals) (named : WellNamed s.name) {base : ν} (based : Base b s base) :
    targets b.space (path (split s.name)) (plant lib) = [base] := by
  obtain ⟨_,parent,hung,member⟩ := base_hung laid listed based
  rcases wellNamed_cases named with ⟨top,browse,parts⟩ | ⟨front,leaf,whole,one,dotless,device,below,browse,nonempty,parts⟩
  · rcases hung_cases laid hung with ⟨_,rfl⟩ | ⟨below,_⟩
    case inr => exact absurd top below
    have alone : Alone b.space ⟨base,plant lib,qname (browseName s)⟩ := by
      refine ⟨member,fun m inside parent name => node_unique laid.distinct inside member ?_⟩
      rcases under_plant laid inside parent with
        ⟨t,listed',below,device,_⟩ | ⟨t,listed',top',browse',based'⟩ | ⟨command,known,called,_⟩
      · exact absurd (qname_inj.mp (device.symm.trans name)) (unshared.device listed listed' top below)
      · cases unshared.signals listed' listed top' top (qname_inj.mp (browse'.symm.trans name))
        exact base_unique laid.distinct based' based
      · exact absurd (qname_inj.mp (name.symm.trans called)) ((unshared.command (List.mem_map_of_mem known) listed).2 top)
    rw [parts,← browse,path,List.map_singleton,targets_singleton]
    exact alone.children laid.distinct
  · rcases hung_cases laid hung with ⟨top,_⟩ | ⟨_,apart,deviceNode⟩
    · exact absurd top below
    have deviceAlone : Alone b.space ⟨parent,plant lib,qname (deviceName s)⟩ := by
      refine ⟨deviceNode,fun m inside parent' name => node_unique laid.distinct inside deviceNode ?_⟩
      rcases under_plant laid inside parent' with ⟨t,_,_,device',found⟩ | ⟨t,listed',top',browse',_⟩ | ⟨command,known,called,_⟩
      · rw [qname_inj.mp (device'.symm.trans name)] at found
        simp only [Parent,if_neg below] at hung
        exact Option.some.inj (found.symm.trans hung)
      · exact absurd (qname_inj.mp (name.symm.trans browse')) (unshared.device listed' listed top' below)
      · exact absurd (qname_inj.mp (name.symm.trans called)) ((unshared.command (List.mem_map_of_mem known) listed).1 below)
    have alone : Alone b.space ⟨base,parent,qname (browseName s)⟩ := by
      refine ⟨member,fun m inside parent' name => node_unique laid.distinct inside member ?_⟩
      -- A signal that hangs off the device has it for its own.
      have ofDevice {t : Signal} (hung' : Parent lib b t parent) : deviceName t ≠ "" ∧ deviceName t = deviceName s := by
        rcases hung_cases laid hung' with ⟨_,same⟩ | ⟨below',_,other⟩
        · exact absurd same apart
        · exact ⟨below',qname_inj.mp (congrArg Node.name (node_unique laid.distinct other deviceNode rfl))⟩
      cases laid.place m inside with
      | plant => exact absurd parent'.symm (laid.below _ deviceNode)
      | device | method => exact absurd parent'.symm apart
      | @signal t base' _ listed' based' hung' =>
        cases parent'
        obtain ⟨below',same⟩ := ofDevice hung'
        have whole' := name_eq whole dotless nonempty (same.trans device) below' ((qname_inj.mp name).trans browse)
        cases List.inj_on_of_nodup_map names listed' listed whole'
        exact base_unique laid.distinct based' based
      | @inner t _ listed' based' =>
        -- The device is no signal's base.
        rw [parent'] at based'
        obtain ⟨_,parent'',hung',node⟩ := base_hung laid listed' based'
        have same := node_unique laid.distinct node deviceNode rfl
        rcases hung_cases laid hung' with ⟨top',_⟩ | ⟨_,other,_⟩
        · exact absurd (qname_inj.mp (congrArg Node.name same)).symm (unshared.device listed' listed top' below)
        · exact absurd (congrArg Node.parent same) other
    rw [parts,path,List.map_cons,List.map_singleton]
    have atDevice : targets b.space [qname (deviceName s)] (plant lib) = [parent] := by
      rw [targets_singleton]
      exact deviceAlone.children laid.distinct
    exact alone.targets laid.distinct atDevice

omit unshared names in
/-- A signal's value, reached, has been reached through its base. -/
theorem reached_base {s : Signal} {base nodeId : ν} (based : Base b s base) (known : b.nodeIds.lookup s.name = some nodeId)
    (reached : lib.getChild b.space (plant lib) (signalPath s) = .ok nodeId) :
    base ∈ targets b.space (path (split s.name)) (plant lib) := by
  have target : nodeId ∈ targets b.space (signalPath s) (plant lib) := mem_targets.mpr (lib.target _ _ _ _ reached)
  obtain ⟨nodeId',known',value⟩ := based
  cases known.symm.trans known'
  unfold signalPath at target
  split_ifs at value target with machine
  · obtain ⟨n,member,same,_,inside⟩ := mem_targets_concat target
    cases node_unique laid.distinct member value same
    exact inside
  · exact value ▸ target

omit unshared names in
/-- The path of any other name never leads to the signal's value. -/
theorem wellNamed_of_reached {s : Signal} (listed : s ∈ contract.signals) (nonempty : s.name ≠ "") {nodeId : ν}
    (known : b.nodeIds.lookup s.name = some nodeId)
    (reached : lib.getChild b.space (plant lib) (signalPath s) = .ok nodeId) : WellNamed s.name := by
  obtain ⟨base,_,based,_,_⟩ := laid.signal s listed
  obtain ⟨_,parent,hung,member⟩ := base_hung laid listed based
  have target := reached_base laid based known reached
  by_cases dotted : '.' ∈ s.name.toList
  · obtain ⟨front,leaf,whole,dotless⟩ := last_dot dotted
    have parts := split_dotted whole dotless
    have device : deviceName s = String.ofList front := by rw [deviceName,rpartition_dotted whole dotless]
    rw [parts,path,List.map_append,List.map_singleton] at target
    obtain ⟨n,inside,same,called,through⟩ := mem_targets_concat target
    cases node_unique laid.distinct inside member same
    have leafNonempty : leaf ≠ [] := by
      rintro rfl
      simp only [qname_inj,browseName,rpartition_dotted whole dotless] at called
      exact nonempty called
    rcases hung_cases laid hung with ⟨top,rfl⟩ | ⟨below,_,deviceNode⟩
    · -- Nothing leads from the plant to the plant.
      have empty : front = [] := by
        rw [device] at top
        exact not_not.mp (mt ofList_ne_empty.mpr (not_not.mpr top))
      subst empty
      have loop : plant lib ∈ targets b.space ([] ++ [qname ""]) (plant lib) := through
      obtain ⟨m,inside',same',_,up⟩ := mem_targets_concat loop
      cases node_unique laid.distinct inside' laid.root same'
      rw [targets_nil,List.mem_singleton] at up
      exact absurd up.symm (plant_below laid)
    · by_cases twice : '.' ∈ front
      · -- The device's name has a dot, and the name of the node before the last on the path has none.
        obtain ⟨front',leaf',whole',dotless'⟩ := last_dot twice
        have more := split_dotted
          (by rw [String.toList_ofList,whole'] : (String.ofList front).toList = front' ++ '.' :: leaf') dotless'
        change parent ∈ targets b.space (path (split (String.ofList front))) (plant lib) at through
        rw [more,path,List.map_append,List.map_singleton] at through
        obtain ⟨m,inside',same',called',_⟩ := mem_targets_concat through
        cases node_unique laid.distinct inside' deviceNode same'
        rw [qname_inj,device,String.ofList_inj] at called'
        rw [called'] at twice
        exact absurd twice dotless'
      · have single : split (String.ofList front) = [String.ofList front] := split_dotless (by rwa [String.toList_ofList])
        rw [WellNamed,parts,single]
        refine ⟨by simp,?_⟩
        simp only [List.singleton_append,List.forall_mem_cons,List.not_mem_nil,false_imp_iff,implies_true,and_true]
        exact ⟨device ▸ below,ofList_ne_empty.mpr leafNonempty⟩
  · rw [WellNamed,split_dotless dotted]
    exact ⟨by simp,by simpa using nonempty⟩

/-- The path of a well-formed name leads to the signal's value. -/
theorem reaches_value {s : Signal} (listed : s ∈ contract.signals) (named : WellNamed s.name) {nodeId : ν}
    (known : b.nodeIds.lookup s.name = some nodeId) : lib.getChild b.space (plant lib) (signalPath s) = .ok nodeId := by
  obtain ⟨base,_,based,_,_⟩ := laid.signal s listed
  have toBase := reaches_base laid names unshared listed named based
  obtain ⟨nodeId',known',value⟩ := id based
  cases known.symm.trans known'
  have toValue : targets b.space (signalPath s) (plant lib) = [nodeId] := by
    unfold signalPath
    split_ifs at value ⊢ with machine
    · exact (state_alone laid listed based known value).targets laid.distinct toBase
    · rw [toBase,value]
  exact getChild_only toValue

omit names in
/-- The path of a method's name leads to it. -/
theorem reaches_method (binds : Bound lib commands b) {command : String × CmdCode} (known : command ∈ commands) :
    lib.getChild b.space (plant lib) (path [command.1]) = .ok (lib.named ("Plant." ++ command.1)) := by
  obtain ⟨_,member⟩ := binds.method command known
  have alone : Alone b.space ⟨lib.named ("Plant." ++ command.1),plant lib,qname command.1⟩ := by
    refine ⟨member,fun m inside parent name => node_unique laid.distinct inside member ?_⟩
    rcases under_plant laid inside parent with ⟨t,listed,below,device,_⟩ | ⟨t,listed,top,browse,_⟩ | ⟨command',known',called,same⟩
    · exact absurd (qname_inj.mp (device.symm.trans name)) ((unshared.command (List.mem_map_of_mem known) listed).1 below)
    · exact absurd (qname_inj.mp (browse.symm.trans name)) ((unshared.command (List.mem_map_of_mem known) listed).2 top)
    · rw [same,qname_inj.mp (called.symm.trans name)]
  refine getChild_only ?_
  rw [path,List.map_singleton,targets_singleton]
  exact alone.children laid.distinct

omit unshared names in
/-- The node of a method invokes its code. -/
theorem invokes (binds : Bound lib commands b) {command : String × CmdCode} (known : command ∈ commands) :
    b.methods.lookup (lib.named ("Plant." ++ command.1)) = some command.2 := by
  obtain ⟨bound,member⟩ := binds.method command known
  cases found : b.methods.lookup (lib.named ("Plant." ++ command.1)) with
  | none =>
    have absent := List.lookup_eq_none_iff.mp found _ bound
    simp at absent
  | some code =>
    obtain ⟨before,after,entries,_⟩ := List.lookup_eq_some_iff.mp found
    obtain ⟨command',known',same,member'⟩ := binds.command (lib.named ("Plant." ++ command.1)) code (by simp [entries])
    have name := qname_inj.mp (congrArg Node.name (node_unique laid.distinct member' member rfl))
    have names : (commands.map Prod.fst).Nodup := by decide
    rw [← same,List.inj_on_of_nodup_map names known' known name]

end

/-! ### The whole -/

/-- What the client has found is what the gateway has built: each signal at the node where its value is
    published, and each method at the node that invokes its code. -/
structure Agrees {ν : Type} [DecidableEq ν] (contract : Contract) (b : Built ν) (found : Found ν) : Prop where
  signal : ∀ s ∈ contract.signals, ∃ nodeId, b.nodeIds.lookup s.name = some nodeId ∧
    found.nodes.lookup s.name = some nodeId ∧ found.signals.lookup nodeId = some s
  method : ∀ code ∈ codes, ∃ node, found.methods.lookup (methodName code) = some node ∧ b.methods.lookup node = some code

theorem commands_eq : commands = codes.map (fun code => (methodName code,code)) := by decide +kernel

section
variable {ν : Type} {lib : Library ν} {space : List (Node ν QName)} {start : ν} {found found' : Found ν}

theorem resolveSignals_total {signals : List Signal}
    (every : ∀ s ∈ signals, ∃ node, lib.getChild space start (signalPath s) = .ok node) (found : Found ν) :
    ∃ found', signals.foldlM (resolveSignal lib space start) found = .ok found' :=
  foldlM_total every found

theorem resolveMethods_total {rest : List CmdCode}
    (every : ∀ code ∈ rest, ∃ node, lib.getChild space start (path [methodName code]) = .ok node) (found : Found ν) :
    ∃ found', rest.foldlM (resolveMethod lib space start) found = .ok found' :=
  foldlM_total every found

theorem resolveSignals_recorded {signals : List Signal} (names : (signals.map Signal.name).Nodup)
    (resolved : signals.foldlM (resolveSignal lib space start) found = .ok found') :
    ∀ s ∈ signals, ∃ node, lib.getChild space start (signalPath s) = .ok node ∧ found'.nodes.lookup s.name = some node := by
  refine foldlM_recorded (fun r k => List.lookup k r.nodes) (fun s _ => s.name) (fun _ node => node)
    (fun r x y => List.lookup_cons_self) (fun r x y k other => lookup_cons_ne other _ _) ?_ resolved
  exact (List.pairwise_map.mp names).imp fun other _ _ _ _ => other

theorem resolveSignals_back [DecidableEq ν] {signals : List Signal} (names : (signals.map Signal.name).Nodup)
    (apart : ∀ s ∈ signals, ∀ t ∈ signals, ∀ node, lib.getChild space start (signalPath s) = .ok node →
      lib.getChild space start (signalPath t) = .ok node → s = t)
    (resolved : signals.foldlM (resolveSignal lib space start) found = .ok found') :
    ∀ s ∈ signals, ∃ node, lib.getChild space start (signalPath s) = .ok node ∧ found'.signals.lookup node = some s := by
  refine foldlM_recorded (fun r k => List.lookup k r.signals) (fun _ node => node) (fun s _ => s)
    (fun r x y => List.lookup_cons_self) (fun r x y k other => lookup_cons_ne other _ _) ?_ resolved
  refine List.Pairwise.imp_of_mem ?_ (names.of_map : signals.Nodup)
  rintro s t first second other node _ reached reached' rfl
  exact other (apart s first t second node reached reached')

theorem resolveMethods_recorded {rest : List CmdCode} (names : (rest.map methodName).Nodup)
    (resolved : rest.foldlM (resolveMethod lib space start) found = .ok found') :
    ∀ code ∈ rest, ∃ node, lib.getChild space start (path [methodName code]) = .ok node ∧
      found'.methods.lookup (methodName code) = some node := by
  refine foldlM_recorded (fun r k => List.lookup k r.methods) (fun code _ => methodName code) (fun _ node => node)
    (fun r x y => List.lookup_cons_self) (fun r x y k other => lookup_cons_ne other _ _) ?_ resolved
  exact (List.pairwise_map.mp names).imp fun other _ _ _ _ => other

/-- The methods leave what has been found of the signals. -/
theorem resolveMethods_signals {rest : List CmdCode} (resolved : rest.foldlM (resolveMethod lib space start) found = .ok found') :
    found'.nodes = found.nodes ∧ found'.signals = found.signals := by
  induction rest generalizing found with
  | nil =>
    cases resolved
    exact ⟨rfl,rfl⟩
  | cons code rest ih =>
    rw [List.foldlM_cons] at resolved
    obtain ⟨between,here,later⟩ := bind_eq_ok.mp resolved
    obtain ⟨node,_,here⟩ := bind_eq_ok.mp here
    cases here
    obtain ⟨nodes,signals⟩ := ih later
    exact ⟨nodes,signals⟩

end

section
variable {ν : Type} [DecidableEq ν] {lib : Library ν} {unit : Signal → Option String} {contract : Contract} {b : Built ν}
  (valid : validate contract = .ok ()) (built : buildAddressSpace lib unit contract = .ok b)
  (nonempty : ∀ s ∈ contract.signals, s.name ≠ "")
include valid built nonempty

omit nonempty in
/-- Well-formed names are resolved to the nodes that have been built for them. -/
theorem resolves (unshared : Unshared contract) (wellNamed : ∀ s ∈ contract.signals, WellNamed s.name) (before : Found ν) :
    ∃ found, resolve lib b.space contract before = .ok found ∧ Agrees contract b found := by
  obtain ⟨laid,binds⟩ := built_laid valid built
  have names : (contract.signals.map Signal.name).Nodup := names_distinct (validate_ok valid).2.1
  have known (s : Signal) (listed : s ∈ contract.signals) : ∃ nodeId, b.nodeIds.lookup s.name = some nodeId := by
    obtain ⟨_,_,⟨nodeId,found,_⟩,_⟩ := laid.signal s listed
    exact ⟨nodeId,found⟩
  have reaches (s : Signal) (listed : s ∈ contract.signals) {nodeId : ν} (held : b.nodeIds.lookup s.name = some nodeId) :
      lib.getChild b.space (plant lib) (signalPath s) = .ok nodeId :=
    reaches_value laid names unshared listed (wellNamed s listed) held
  have reachesMethod (code : CmdCode) (listed : code ∈ codes) : (methodName code,code) ∈ commands ∧
      lib.getChild b.space (plant lib) (path [methodName code]) = .ok (lib.named ("Plant." ++ methodName code)) := by
    have member : (methodName code,code) ∈ commands := commands_eq ▸ List.mem_map_of_mem listed
    have reached := reaches_method laid unshared binds member
    exact ⟨member,reached⟩
  have every : ∀ s ∈ contract.signals, ∃ node, lib.getChild b.space (plant lib) (signalPath s) = .ok node := by
    intro s listed
    obtain ⟨nodeId,held⟩ := known s listed
    exact ⟨nodeId,reaches s listed held⟩
  have everyMethod : ∀ code ∈ codes, ∃ node, lib.getChild b.space (plant lib) (path [methodName code]) = .ok node :=
    fun code listed => ⟨_,(reachesMethod code listed).2⟩
  obtain ⟨found',signals⟩ := resolveSignals_total every before
  obtain ⟨found,methods⟩ := resolveMethods_total everyMethod found'
  obtain ⟨sameNodes,sameSignals⟩ := resolveMethods_signals methods
  refine ⟨found,?_,?_,?_⟩
  · exact bind_eq_ok.mpr ⟨plant lib,reaches_plant laid,bind_eq_ok.mpr ⟨found',signals,methods⟩⟩
  · intro s listed
    obtain ⟨nodeId,held⟩ := known s listed
    have reached := reaches s listed held
    have apart : ∀ s ∈ contract.signals, ∀ t ∈ contract.signals, ∀ node,
        lib.getChild b.space (plant lib) (signalPath s) = .ok node →
        lib.getChild b.space (plant lib) (signalPath t) = .ok node → s = t := by
      intro s listed t listed' node reached reached'
      obtain ⟨first,held⟩ := known s listed
      obtain ⟨second,held'⟩ := known t listed'
      cases (reaches s listed held).symm.trans reached
      cases (reaches t listed' held').symm.trans reached'
      exact List.inj_on_of_nodup_map names listed listed' (laid.apart _ _ _ held held')
    obtain ⟨node,reached₁,recorded⟩ := resolveSignals_recorded names signals s listed
    obtain ⟨node',reached₂,back⟩ := resolveSignals_back names apart signals s listed
    cases reached.symm.trans reached₁
    cases reached.symm.trans reached₂
    exact ⟨nodeId,held,sameNodes ▸ recorded,sameSignals ▸ back⟩
  · intro code listed
    obtain ⟨member,reached⟩ := reachesMethod code listed
    obtain ⟨node,reached',recorded⟩ :=
      resolveMethods_recorded (by decide +kernel : (codes.map methodName).Nodup) methods code listed
    cases reached.symm.trans reached'
    have bound := invokes laid binds member
    exact ⟨_,recorded,bound⟩

/-- Whatever it has found before, the client finds at the nodes that the gateway has built for the signals
    and methods exactly these if every signal's name is well formed, as long as no two things under
    the plant have one name. If one is not, it finds another node for the signal, or none. -/
theorem resolves_iff (unshared : Unshared contract) (before : Found ν) :
    (∃ found, resolve lib b.space contract before = .ok found ∧ Agrees contract b found) ↔
      ∀ s ∈ contract.signals, WellNamed s.name := by
  refine ⟨?_,fun wellNamed => resolves valid built unshared wellNamed before⟩
  rintro ⟨found,resolved,agrees⟩ s listed
  obtain ⟨laid,_⟩ := built_laid valid built
  have names : (contract.signals.map Signal.name).Nodup := names_distinct (validate_ok valid).2.1
  obtain ⟨plant',atPlant,resolved⟩ := bind_eq_ok.mp resolved
  cases (reaches_plant laid).symm.trans atPlant
  obtain ⟨found',signals,methods⟩ := bind_eq_ok.mp resolved
  obtain ⟨node,reached,recorded⟩ := resolveSignals_recorded names signals s listed
  obtain ⟨nodeId,held,same,_⟩ := agrees.signal s listed
  rw [(resolveMethods_signals methods).1] at same
  cases recorded.symm.trans same
  exact wellNamed_of_reached laid listed (nonempty s listed) held reached

end

/-- The contract as it is shipped, and with one signal more, whose name has two dots. -/
theorem resolves_iff_tags :
    let cell : Contract := { Shipped.tags with signals := Shipped.tags.signals ++
      [{ Shipped.position with name := "Cell.Conveyor2.Position", modbus := { Shipped.position.modbus with addr := 50 }
                               opcua := { Shipped.position.opcua with id := "s=Cell.Conveyor2.Position" } }] }
    (∃ b found, buildAddressSpace numbering units Shipped.tags = .ok b ∧
      resolve numbering b.space Shipped.tags {} = .ok found ∧ Agrees Shipped.tags b found) ∧
    ∃ b, buildAddressSpace numbering units cell = .ok b ∧
      ¬ ∃ found, resolve numbering b.space cell {} = .ok found ∧ Agrees cell b found := by
  intro cell
  constructor
  · obtain ⟨b,built⟩ := Option.isSome_iff_exists.mp
      (by decide +kernel : (buildAddressSpace numbering units Shipped.tags).toOption.isSome)
    have built := toOption_eq_ok.mp built
    obtain ⟨found,resolved,agrees⟩ := (resolves_iff (by decide +kernel : validate Shipped.tags = .ok ()) built
      (by decide +kernel) (by decide +kernel) {}).mpr (by decide +kernel)
    exact ⟨b,found,built,resolved,agrees⟩
  · obtain ⟨b,built⟩ := Option.isSome_iff_exists.mp (by decide +kernel : (buildAddressSpace numbering units cell).toOption.isSome)
    have built := toOption_eq_ok.mp built
    have ill : ¬ ∀ s ∈ cell.signals, WellNamed s.name := by decide +kernel
    exact ⟨b,built,fun resolved => ill ((resolves_iff (by decide +kernel : validate cell = .ok ()) built
      (by decide +kernel) (by decide +kernel) {}).mp resolved)⟩

end MockPlant.Resolution
