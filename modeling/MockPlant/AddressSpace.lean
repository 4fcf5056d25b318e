import MockPlant.Browse
import MockPlant.GatewayServer

/-!
The address space that the gateway builds from the contract: a device for what stands before
the last dot of a signal's name, a variable or a state machine under it for the signal, and
the methods. What the OPC UA library does with ids is left open, except that it adds no node
under an id that is taken. That is enough for the nodes of the signals to be apart.
-/
namespace MockPlant.AddressSpace
open MockPlant.Python MockPlant.Contract MockPlant.Browse MockPlant.GatewayServer

/-! ### Names -/

/-- `rpartition(".")`, without the dot. -/
def rpartition (name : String) : String × String :=
  let (leaf,rest) := name.toList.reverse.span (· ≠ '.')
  (String.ofList rest.tail.reverse,String.ofList leaf.reverse)

/-- `split(".")` -/
def split (name : String) : List String := (name.toList.splitOn '.').map String.ofList

theorem rpartition_dotless {name : String} (dotless : '.' ∉ name.toList) : rpartition name = ("",name) := by
  have whole : ∀ c ∈ name.toList.reverse, decide (c ≠ '.') = true := by
    intro c inside
    exact decide_eq_true fun dot => dotless (dot ▸ List.mem_reverse.mp inside)
  simp only [rpartition,List.span_eq_takeWhile_dropWhile,List.takeWhile_eq_self_iff.mpr whole,
    List.dropWhile_eq_nil_iff.mpr whole,List.reverse_reverse,String.ofList_toList]
  rfl

theorem split_dotless {name : String} (dotless : '.' ∉ name.toList) : split name = [name] := by
  rw [split,List.splitOn_eq_singleton dotless,List.map_singleton,String.ofList_toList]

/-- The last dot of a name that has one. -/
theorem last_dot {text : List Char} (dotted : '.' ∈ text) : ∃ front leaf, text = front ++ '.' :: leaf ∧ '.' ∉ leaf := by
  obtain ⟨leaf,front,reversed,dotless⟩ := List.eq_append_cons_of_mem (List.mem_reverse.mpr dotted)
  refine ⟨front.reverse,leaf.reverse,?_,by simpa using dotless⟩
  simpa using congrArg List.reverse reversed

section
variable {name : String} {front leaf : List Char} (whole : name.toList = front ++ '.' :: leaf) (dotless : '.' ∉ leaf)
include whole dotless

theorem rpartition_dotted : rpartition name = (String.ofList front,String.ofList leaf) := by
  have last : ∀ c ∈ leaf.reverse, decide (c ≠ '.') = true := by
    intro c inside
    exact decide_eq_true fun dot => dotless (dot ▸ List.mem_reverse.mp inside)
  simp only [rpartition,whole,List.reverse_append,List.reverse_cons,List.append_assoc,List.singleton_append,
    List.span_eq_takeWhile_dropWhile,List.takeWhile_append_of_pos last,List.dropWhile_append_of_pos last]
  simp

theorem split_dotted : split name = split (String.ofList front) ++ [String.ofList leaf] := by
  rw [split,whole,List.splitOn_append_cons_self,List.splitOn_eq_singleton dotless,List.map_append,split,String.toList_ofList,
    List.map_singleton]

end

/-- At most one dot, with something on either side of it. -/
def WellNamed (name : String) : Prop := (split name).length ≤ 2 ∧ ∀ part ∈ split name, part ≠ ""

instance (name : String) : Decidable (WellNamed name) := inferInstanceAs (Decidable (_ ∧ _))

def deviceName (signal : Signal) : String := (rpartition signal.name).1

/-- `leaf or signal.name` -/
def browseName (signal : Signal) : String :=
  if (rpartition signal.name).2 = "" then signal.name else (rpartition signal.name).2

/-! ### Building -/

inductive Namespace
  | standard
  | plant
deriving DecidableEq

structure QName where
  ns : Namespace
  name : String
deriving DecidableEq

/-- `_qname` -/
def qname (name : String) : QName := ⟨.plant,name⟩

@[simp] theorem qname_inj {first second : String} : qname first = qname second ↔ first = second := by simp [qname]

def currentState : QName := ⟨.standard,"CurrentState"⟩

/-- The library's part of the server: the ids it makes of names and texts, the ids it makes up,
    and why it refuses a node; and the search of a path from a node. It never takes a second node
    of one id, a path finds the node that it leads to when it leads to no other, and what is
    found the path leads to. -/
structure Library (ν : Type) where
  objects : ν
  named : String → ν
  fromString : String → Except PyError ν
  identifier : ν → String
  fresh : List (Node ν QName) → ν
  refuses : List (Node ν QName) → Node ν QName → Option PyError
  taken : ∀ space node, refuses space node = none → node.id ∉ space.map Node.id ∧ node.id ≠ objects
  getChild : List (Node ν QName) → ν → List QName → Except PyError ν
  child : ∀ space node path x, Leads space path node x → (∀ y, Leads space path node y → y = x) →
    getChild space node path = .ok x
  target : ∀ space node path x, getChild space node path = .ok x → Leads space path node x

/-- The server while it is built. The newest entry of a key is the one that is looked up. -/
structure Built (ν : Type) where
  space : List (Node ν QName) := []
  devices : List (String × ν) := []
  nodeIds : List (String × ν) := []
  byNodeId : List (ν × Signal) := []
  setters : List ν := []
  methods : List (ν × CmdCode) := []

/-- The names of `ua.VariantType`. -/
def variantTypes : List String :=
  ["Null","Boolean","SByte","Byte","Int16","UInt16","Int32","UInt32","Int64","UInt64","Float","Double","String","DateTime",
    "Guid","ByteString","XmlElement","NodeId","ExpandedNodeId","StatusCode","QualifiedName","LocalizedText","ExtensionObject",
    "DataValue","Variant","DiagnosticInfo"]

/-- `ua.VariantType[signal.opcua.type]` -/
def variantType (signal : Signal) : Except PyError String :=
  match signal.opcua.type with
  | some type => if type ∈ variantTypes then .ok type else .error .keyError
  | none => .error .keyError

section
variable {ν : Type} (lib : Library ν) (unit : Signal → Option String)

def add (node : Node ν QName) (b : Built ν) : Except PyError (Built ν) :=
  match lib.refuses b.space node with
  | some e => .error e
  | none => .ok { b with space := b.space ++ [node] }

/-- `_node_ids[signal.name] = node_id`, `_by_node_id[node_id] = signal` -/
def Built.register (b : Built ν) (signal : Signal) (nodeId : ν) : Built ν :=
  { b with nodeIds := (signal.name,nodeId) :: b.nodeIds, byNodeId := (nodeId,signal) :: b.byNodeId }

def addUnit (nodeId : ν) (signal : Signal) (b : Built ν) : Except PyError (Built ν) :=
  match unit signal with
  | none | some "" => .ok b
  | some _ => add lib ⟨lib.named (lib.identifier nodeId ++ ".EngineeringUnits"),nodeId,qname "EngineeringUnits"⟩ b

def addSignal (parent : ν) (signal : Signal) (b : Built ν) : Except PyError (Built ν) := do
  let nodeId ← lib.fromString signal.opcua.id
  let _ ← variantType signal
  let b ← add lib ⟨nodeId,parent,qname (browseName signal)⟩ b
  let b := if signal.opcua.access = "RW" then { b with setters := nodeId :: b.setters } else b
  let b ← addUnit lib unit nodeId signal b
  pure (b.register signal nodeId)

/-- The states and transitions of a machine. -/
def addStates (machine : ν) : List (ℤ × String) → Built ν → Except PyError (Built ν)
  | [], b => .ok b
  | (_,name) :: rest, b => do
    let b ← add lib ⟨lib.fresh b.space,machine,qname name⟩ b
    let b ← add lib ⟨lib.fresh b.space,machine,qname ("To" ++ name)⟩ b
    addStates machine rest b

def addStateSignal (parent : ν) (signal : Signal) (states : List (ℤ × String)) (b : Built ν) :
    Except PyError (Built ν) := do
  let states := states.insertionSort (fun x y => x.1 ≤ y.1)
  if states = [] then .error .indexError
  let machine := lib.fresh b.space
  let b ← add lib ⟨machine,parent,qname (browseName signal)⟩ b
  let current := lib.fresh b.space
  let b ← add lib ⟨current,machine,currentState⟩ b
  let b ← add lib ⟨lib.fresh b.space,machine,⟨.standard,"LastTransition"⟩⟩ b
  let b ← addStates lib machine states b
  pure (b.register signal current)

def plant : ν := lib.named "Plant"

/-- The node to hang a signal off. -/
def parentFor (signal : Signal) (b : Built ν) : Except PyError (ν × Built ν) :=
  if deviceName signal = "" then .ok (plant lib,b)
  else
    match b.devices.lookup (deviceName signal) with
    | some device => .ok (device,b)
    | none => do
      let device := lib.named (deviceName signal)
      let b ← add lib ⟨device,plant lib,qname (deviceName signal)⟩ b
      pure (device,{ b with devices := (deviceName signal,device) :: b.devices })

def addContractSignal (b : Built ν) (signal : Signal) : Except PyError (Built ν) := do
  let (parent,b) ← parentFor lib signal b
  match signal.opcua.states with
  | some states => addStateSignal lib parent signal states b
  | none => addSignal lib unit parent signal b

def addMethod (b : Built ν) (method : String × CmdCode) : Except PyError (Built ν) := do
  let node := lib.named ("Plant." ++ method.1)
  let b ← add lib ⟨node,plant lib,qname method.1⟩ b
  pure { b with methods := (node,method.2) :: b.methods }

/-- The methods of `_add_commands` with the code that each one invokes. -/
def commands : List (String × CmdCode) := [("Start",.start),("Stop",.stop),("CncStart",.cncStart),("CncReset",.cncReset)]

def buildAddressSpace (contract : Contract) : Except PyError (Built ν) := do
  let b ← add lib ⟨plant lib,lib.objects,qname "Plant"⟩ {}
  let b ← contract.signals.foldlM (addContractSignal lib unit) b
  commands.foldlM (addMethod lib) b

/-! ### What a step adds -/

/-- The server after some nodes have been added, of new ids. -/
structure Grows (b b' : Built ν) (news : List (Node ν QName)) : Prop where
  grown : b' = { b with space := b.space ++ news }
  distinct : (b.space.map Node.id).Nodup → (b'.space.map Node.id).Nodup
  below : ∀ n ∈ news, n.id ≠ lib.objects

/-- A signal's variable or machine has been added, what hangs off it, and the node of its value. -/
structure Adds (b b' : Built ν) (signal : Signal) (parent base nodeId : ν) (inner : List (Node ν QName)) : Prop where
  space : b'.space = b.space ++ ⟨base,parent,qname (browseName signal)⟩ :: inner
  devices : b'.devices = b.devices
  nodeIds : b'.nodeIds = (signal.name,nodeId) :: b.nodeIds
  byNodeId : b'.byNodeId = (nodeId,signal) :: b.byNodeId
  setters : b'.setters = if writable signal then nodeId :: b.setters else b.setters
  methods : b'.methods = b.methods
  distinct : (b.space.map Node.id).Nodup → (b'.space.map Node.id).Nodup
  below : base ≠ lib.objects ∧ ∀ n ∈ inner, n.id ≠ lib.objects
  hangs : ∀ n ∈ inner, n.parent = base ∧ (n.name = currentState → n.id = nodeId)
  value : if signal.opcua.states.isSome then ⟨nodeId,base,currentState⟩ ∈ inner else nodeId = base

variable {lib unit} {b b' : Built ν}

theorem Grows.refl : Grows lib b b [] := ⟨by simp,id,by simp⟩

theorem Grows.trans {b'' : Built ν} {first second : List (Node ν QName)} (one : Grows lib b b' first)
    (two : Grows lib b' b'' second) : Grows lib b b'' (first ++ second) := by
  refine ⟨?_,two.distinct ∘ one.distinct,?_⟩
  · rw [two.grown,one.grown,List.append_assoc]
  · intro n member
    rcases List.mem_append.mp member with early | late
    · exact one.below n early
    · exact two.below n late

theorem add_grows {node : Node ν QName} (added : add lib node b = .ok b') : Grows lib b b' [node] := by
  unfold add at added
  split at added
  · cases added
  case h_2 free =>
    cases added
    obtain ⟨new,below⟩ := lib.taken b.space node free
    refine ⟨rfl,fun distinct => ?_,by simpa using below⟩
    rw [List.map_append,List.map_singleton,List.nodup_append]
    refine ⟨distinct,List.nodup_singleton _,?_⟩
    rintro x inside y last rfl
    exact new (List.mem_singleton.mp last ▸ inside)

theorem addUnit_grows {nodeId : ν} {signal : Signal} (added : addUnit lib unit nodeId signal b = .ok b') :
    ∃ news, Grows lib b b' news ∧ ∀ n ∈ news, n.parent = nodeId ∧ n.name ≠ currentState := by
  unfold addUnit at added
  split at added
  · cases added
    exact ⟨[],.refl,by simp⟩
  · cases added
    exact ⟨[],.refl,by simp⟩
  · exact ⟨_,add_grows added,by simp [qname,currentState]⟩

theorem addStates_grows {machine : ν} {states : List (ℤ × String)} (added : addStates lib machine states b = .ok b') :
    ∃ news, Grows lib b b' news ∧ ∀ n ∈ news, n.parent = machine ∧ n.name ≠ currentState := by
  induction states generalizing b with
  | nil =>
    cases added
    exact ⟨[],.refl,by simp⟩
  | cons entry rest ih =>
    obtain ⟨b₁,state,added⟩ := bind_eq_ok.mp added
    obtain ⟨b₂,transition,added⟩ := bind_eq_ok.mp added
    obtain ⟨news,grows,inner⟩ := ih added
    refine ⟨_,((add_grows state).trans (add_grows transition)).trans grows,?_⟩
    intro n member
    simp only [List.cons_append,List.nil_append,List.mem_cons] at member
    rcases member with rfl | rfl | later
    · exact ⟨rfl,by simp [qname,currentState]⟩
    · exact ⟨rfl,by simp [qname,currentState]⟩
    · exact inner n later

theorem addSignal_adds {parent : ν} {signal : Signal} (plain : signal.opcua.states = none)
    (added : addSignal lib unit parent signal b = .ok b') :
    ∃ base nodeId inner, Adds lib b b' signal parent base nodeId inner := by
  obtain ⟨nodeId,_,added⟩ := bind_eq_ok.mp added
  obtain ⟨_,_,added⟩ := bind_eq_ok.mp added
  obtain ⟨b₁,variable_,added⟩ := bind_eq_ok.mp added
  obtain ⟨b₂,property,added⟩ := bind_eq_ok.mp added
  cases added
  have first := add_grows variable_
  obtain ⟨inner,second,hangs⟩ := addUnit_grows property
  have settable : writable signal = decide (signal.opcua.access = "RW") := by simp [writable,plain]
  -- The setter changes nothing that the nodes of the unit look at.
  have before : (if signal.opcua.access = "RW" then { b₁ with setters := nodeId :: b₁.setters } else b₁) =
      { b₁ with setters := if writable signal then nodeId :: b₁.setters else b₁.setters } := by
    simp only [settable,decide_eq_true_eq]
    split_ifs <;> rfl
  rw [before] at second
  have grown := second.grown
  rw [first.grown] at grown
  exact ⟨nodeId,nodeId,inner,{
    space := by simp [Built.register,grown]
    devices := by simp [Built.register,grown]
    nodeIds := by simp [Built.register,grown]
    byNodeId := by simp [Built.register,grown]
    setters := by simp [Built.register,grown]
    methods := by simp [Built.register,grown]
    distinct := fun distinct => second.distinct (first.distinct distinct)
    below := ⟨by simpa using first.below,second.below⟩
    hangs := fun n member => ⟨(hangs n member).1,fun current => absurd current (hangs n member).2⟩
    value := by simp [plain] }⟩

theorem addStateSignal_adds {parent : ν} {signal : Signal} {states : List (ℤ × String)}
    (machine : signal.opcua.states = some states) (added : addStateSignal lib parent signal states b = .ok b') :
    ∃ base nodeId inner, Adds lib b b' signal parent base nodeId inner := by
  simp only [addStateSignal] at added
  split_ifs at added with empty
  · cases added
  obtain ⟨b₁,object,added⟩ := bind_eq_ok.mp added
  obtain ⟨b₂,current,added⟩ := bind_eq_ok.mp added
  obtain ⟨b₃,last,added⟩ := bind_eq_ok.mp added
  obtain ⟨b₄,described,added⟩ := bind_eq_ok.mp added
  cases added
  obtain ⟨news,fourth,hangs⟩ := addStates_grows described
  have grows := ((add_grows object).trans ((add_grows current).trans (add_grows last))).trans fourth
  simp only [List.cons_append,List.nil_append] at grows
  have below := List.forall_mem_cons.mp grows.below
  exact ⟨_,lib.fresh b₁.space,_,{
    space := by rw [Built.register,grows.grown]
    devices := by rw [Built.register,grows.grown]
    nodeIds := by rw [Built.register,grows.grown]
    byNodeId := by rw [Built.register,grows.grown]
    setters := by simp [Built.register,grows.grown,writable,machine]
    methods := by rw [Built.register,grows.grown]
    distinct := grows.distinct
    below := below
    hangs := by
      refine List.forall_mem_cons.mpr ⟨⟨rfl,fun _ => rfl⟩,List.forall_mem_cons.mpr ⟨⟨rfl,by simp [currentState]⟩,?_⟩⟩
      exact fun n later => ⟨(hangs n later).1,fun current => absurd current (hangs n later).2⟩
    value := by simp [machine] }⟩

theorem parentFor_cases {signal : Signal} {parent : ν} (placed : parentFor lib signal b = .ok (parent,b')) :
    deviceName signal = "" ∧ parent = plant lib ∧ b' = b ∨
      deviceName signal ≠ "" ∧ b.devices.lookup (deviceName signal) = some parent ∧ b' = b ∨
      deviceName signal ≠ "" ∧ b.devices.lookup (deviceName signal) = none ∧
        ∃ b₁, Grows lib b b₁ [⟨parent,plant lib,qname (deviceName signal)⟩] ∧
          b' = { b₁ with devices := (deviceName signal,parent) :: b₁.devices } := by
  unfold parentFor at placed
  split_ifs at placed with top
  · cases placed
    exact .inl ⟨top,rfl,rfl⟩
  · split at placed
    case h_1 device found =>
      cases placed
      exact .inr (.inl ⟨top,found,rfl⟩)
    case h_2 absent =>
      obtain ⟨b₁,added,placed⟩ := bind_eq_ok.mp placed
      cases placed
      exact .inr (.inr ⟨top,absent,b₁,add_grows added,rfl⟩)

/-! ### Where the nodes are -/

theorem lookup_cons_ne {κ ω : Type} [DecidableEq κ] {key name : κ} (other : name ≠ key) (value : ω) (entries : List (κ × ω)) :
    ((key,value) :: entries).lookup name = entries.lookup name := by
  rw [List.lookup_cons,beq_false_of_ne other]

variable (lib) in
/-- The node that a signal hangs off. -/
def Parent (b : Built ν) (signal : Signal) (parent : ν) : Prop :=
  if deviceName signal = "" then parent = plant lib else b.devices.lookup (deviceName signal) = some parent

/-- The variable or the machine of a signal. -/
def Base (b : Built ν) (signal : Signal) (base : ν) : Prop :=
  ∃ nodeId, b.nodeIds.lookup signal.name = some nodeId ∧
    if signal.opcua.states.isSome then ⟨nodeId,base,currentState⟩ ∈ b.space else nodeId = base

/-- A signal has one base. -/
theorem base_unique (distinct : (b.space.map Node.id).Nodup) {signal : Signal} {x y : ν} (first : Base b signal x)
    (second : Base b signal y) : x = y := by
  obtain ⟨nodeId,known,value⟩ := first
  obtain ⟨nodeId',known',value'⟩ := second
  cases known.symm.trans known'
  split_ifs at value value' with machine
  · exact congrArg Node.parent (node_unique distinct value value' rfl)
  · exact value.symm.trans value'

variable (lib) in
/-- What a node of the built space is. -/
inductive Place (b : Built ν) (done : List Signal) : Node ν QName → Prop
  | plant : Place b done ⟨plant lib,lib.objects,qname "Plant"⟩
  | device {name : String} {id : ν} (listed : b.devices.lookup name = some id) : Place b done ⟨id,plant lib,qname name⟩
  | signal {signal : Signal} {base parent : ν} (member : signal ∈ done) (based : Base b signal base)
      (hung : Parent lib b signal parent) : Place b done ⟨base,parent,qname (browseName signal)⟩
  | inner {signal : Signal} {n : Node ν QName} (member : signal ∈ done) (based : Base b signal n.parent)
      (value : n.name = currentState → b.nodeIds.lookup signal.name = some n.id) : Place b done n
  | method {command : String × CmdCode} (listed : command ∈ commands) :
      Place b done ⟨lib.named ("Plant." ++ command.1),plant lib,qname command.1⟩

/-- What the second server has of the first. -/
structure Older (b b' : Built ν) : Prop where
  space : ∀ n ∈ b.space, n ∈ b'.space
  devices : ∀ name id, b.devices.lookup name = some id → b'.devices.lookup name = some id
  nodeIds : ∀ name id, b.nodeIds.lookup name = some id → b'.nodeIds.lookup name = some id
  methods : ∀ entry ∈ b.methods, entry ∈ b'.methods

section
variable (older : Older b b')
include older

theorem Parent.mono {signal : Signal} {parent : ν} (before : Parent lib b signal parent) : Parent lib b' signal parent := by
  unfold Parent at *
  split_ifs at * with top
  · exact before
  · exact older.devices _ _ before

theorem Base.mono {signal : Signal} {base : ν} (before : Base b signal base) : Base b' signal base := by
  obtain ⟨nodeId,known,value⟩ := before
  refine ⟨nodeId,older.nodeIds _ _ known,?_⟩
  split_ifs at * with machine
  · exact older.space _ value
  · exact value

theorem Place.mono {done done' : List Signal} (more : ∀ s ∈ done, s ∈ done') {n : Node ν QName}
    (before : Place lib b done n) : Place lib b' done' n := by
  cases before with
  | plant => exact .plant
  | device listed => exact .device (older.devices _ _ listed)
  | signal member based hung => exact .signal (more _ member) (based.mono older) (hung.mono older)
  | inner member based value => exact .inner (more _ member) (based.mono older) fun current => older.nodeIds _ _ (value current)
  | method listed => exact .method listed

end

variable (lib) in
/-- A server with the nodes of some of the signals and nothing else. -/
structure Laid (all done : List Signal) (b : Built ν) : Prop where
  distinct : (b.space.map Node.id).Nodup
  below : ∀ n ∈ b.space, n.id ≠ lib.objects
  place : ∀ n ∈ b.space, Place lib b done n
  root : ⟨plant lib,lib.objects,qname "Plant"⟩ ∈ b.space
  device : ∀ name id, b.devices.lookup name = some id → name ≠ "" ∧ ⟨id,plant lib,qname name⟩ ∈ b.space
  listed : ∀ name id, b.devices.lookup name = some id → ∃ s ∈ all, deviceName s = name
  signal : ∀ s ∈ done, ∃ base parent, Base b s base ∧ Parent lib b s parent ∧ ⟨base,parent,qname (browseName s)⟩ ∈ b.space
  known : ∀ name nodeId, b.nodeIds.lookup name = some nodeId → ∃ s ∈ done, s.name = name ∧ (nodeId,s) ∈ b.byNodeId
  byNodeId : ∀ nodeId s, (nodeId,s) ∈ b.byNodeId → s ∈ done ∧ b.nodeIds.lookup s.name = some nodeId
  apart : ∀ first second nodeId, b.nodeIds.lookup first = some nodeId → b.nodeIds.lookup second = some nodeId → first = second
  based : ∀ s ∈ done, ∀ t ∈ done, ∀ base, Base b s base → Base b t base → s = t
  setters : ∀ nodeId, nodeId ∈ b.setters ↔ ∃ s ∈ done, writable s = true ∧ b.nodeIds.lookup s.name = some nodeId

section
variable {all done : List Signal} (laid : Laid lib all done b)
include laid

/-- The value of a signal is held by a node. -/
theorem Laid.held {name : String} {nodeId : ν} (known : b.nodeIds.lookup name = some nodeId) :
    nodeId ∈ b.space.map Node.id := by
  obtain ⟨s,member,rfl,_⟩ := laid.known _ _ known
  obtain ⟨base,parent,⟨nodeId',known',value⟩,_,inside⟩ := laid.signal s member
  cases known.symm.trans known'
  split_ifs at value with machine
  · exact List.mem_map.mpr ⟨_,value,rfl⟩
  · exact List.mem_map.mpr ⟨_,inside,value.symm⟩

/-- The bases of signals stay apart. -/
theorem Laid.based_older (older : Older b b') (distinct : (b'.space.map Node.id).Nodup) {s t : Signal} (first : s ∈ done)
    (second : t ∈ done) {base : ν} (of_s : Base b' s base) (of_t : Base b' t base) : s = t := by
  obtain ⟨x,_,before_s,_⟩ := laid.signal s first
  obtain ⟨y,_,before_t,_⟩ := laid.signal t second
  have same_s := base_unique distinct (before_s.mono older) of_s
  have same_t := base_unique distinct (before_t.mono older) of_t
  exact laid.based s first t second base (same_s ▸ before_s) (same_t ▸ before_t)

/-- A signal's parent is there, or is added as a device. -/
theorem Laid.parentFor {signal : Signal} {parent : ν} (member : signal ∈ all)
    (placed : parentFor lib signal b = .ok (parent,b')) :
    Laid lib all done b' ∧ Parent lib b' signal parent ∧ b'.methods = b.methods := by
  rcases parentFor_cases placed with ⟨top,rfl,rfl⟩ | ⟨top,found,rfl⟩ | ⟨top,absent,b₁,grows,rfl⟩
  · exact ⟨laid,by simp [Parent,top],rfl⟩
  · exact ⟨laid,by simp [Parent,top,found],rfl⟩
  have grown := grows.grown
  subst grown
  have older : Older b { b with
      space := b.space ++ [⟨parent,plant lib,qname (deviceName signal)⟩]
      devices := (deviceName signal,parent) :: b.devices } := by
    refine ⟨fun n member => List.mem_append_left _ member,fun name id found => ?_,fun _ _ found => found,fun _ member => member⟩
    have other : name ≠ deviceName signal := by
      rintro rfl
      cases absent.symm.trans found
    exact (lookup_cons_ne other _ _).trans found
  refine ⟨⟨grows.distinct laid.distinct,?_,?_,?_,?_,?_,?_,laid.known,laid.byNodeId,laid.apart,?_,laid.setters⟩,
    by simp [Parent,top],rfl⟩
  · intro n member
    rcases List.mem_append.mp member with early | new
    · exact laid.below n early
    · exact grows.below n new
  · intro n member
    rcases List.mem_append.mp member with early | new
    · exact (laid.place n early).mono older fun _ inside => inside
    · rw [List.mem_singleton.mp new]
      exact .device (by simp)
  · exact older.space _ laid.root
  · intro name id found
    by_cases same : name = deviceName signal
    · subst same
      simp only [List.lookup_cons_self,Option.some.injEq] at found
      subst found
      exact ⟨top,by simp⟩
    · rw [lookup_cons_ne same] at found
      obtain ⟨nonempty,member⟩ := laid.device name id found
      exact ⟨nonempty,List.mem_append_left _ member⟩
  · intro name id found
    by_cases same : name = deviceName signal
    · exact ⟨signal,member,same.symm⟩
    · rw [lookup_cons_ne same] at found
      exact laid.listed name id found
  · intro s member
    obtain ⟨base,parent',based,hung,inside⟩ := laid.signal s member
    exact ⟨base,parent',based.mono older,hung.mono older,older.space _ inside⟩
  · exact fun s first t second _ => laid.based_older older (grows.distinct laid.distinct) first second

/-- A signal of a new name is added. -/
theorem Laid.adds {signal : Signal} {parent base nodeId : ν} {inner : List (Node ν QName)}
    (adds : Adds lib b b' signal parent base nodeId inner) (hung : Parent lib b signal parent)
    (new : ∀ s ∈ done, s.name ≠ signal.name) : Laid lib all (done ++ [signal]) b' := by
  have unknown : b.nodeIds.lookup signal.name = none := by
    by_contra known
    obtain ⟨nodeId',found⟩ := Option.ne_none_iff_exists'.mp known
    obtain ⟨s,member,same,_⟩ := laid.known _ _ found
    exact new s member same
  have own : b'.nodeIds.lookup signal.name = some nodeId := by
    rw [adds.nodeIds]
    exact List.lookup_cons_self
  have others {name : String} (other : name ≠ signal.name) : b'.nodeIds.lookup name = b.nodeIds.lookup name := by
    rw [adds.nodeIds]
    exact lookup_cons_ne other _ _
  have older : Older b b' := by
    refine ⟨fun n member => ?_,fun name id found => ?_,fun name id found => ?_,fun entry member => ?_⟩
    · rw [adds.space]
      exact List.mem_append_left _ member
    · rwa [adds.devices]
    · rw [others fun same => ?_]
      · exact found
      · rw [same,unknown] at found
        cases found
    · rwa [adds.methods]
  have more : ∀ s ∈ done, s ∈ done ++ [signal] := fun _ member => List.mem_append_left _ member
  have based : Base b' signal base := by
    refine ⟨nodeId,own,?_⟩
    have value := adds.value
    split_ifs at * with machine
    · rw [adds.space]
      exact List.mem_append_right _ (List.mem_cons_of_mem _ value)
    · exact value
  -- The new value is not held by an old node.
  have fresh (name : String) : b.nodeIds.lookup name ≠ some nodeId := by
    intro known
    have apart := adds.distinct laid.distinct
    rw [adds.space,List.map_append,List.nodup_append] at apart
    refine apart.2.2 nodeId (laid.held known) nodeId ?_ rfl
    have value := adds.value
    split_ifs at value with machine
    · exact List.mem_map.mpr ⟨_,List.mem_cons_of_mem _ value,rfl⟩
    · simp [value]
  have cases_ {n : Node ν QName} (member : n ∈ b'.space) :
      n ∈ b.space ∨ n = ⟨base,parent,qname (browseName signal)⟩ ∨ n ∈ inner := by
    rwa [adds.space,List.mem_append,List.mem_cons] at member
  refine ⟨adds.distinct laid.distinct,?_,?_,older.space _ laid.root,?_,?_,?_,?_,?_,?_,?_,?_⟩
  · intro n member
    rcases cases_ member with early | rfl | hangs
    · exact laid.below n early
    · exact adds.below.1
    · exact adds.below.2 n hangs
  · intro n member
    rcases cases_ member with early | rfl | hangs
    · exact (laid.place n early).mono older more
    · exact .signal (by simp) based (hung.mono older)
    · obtain ⟨same,value⟩ := adds.hangs n hangs
      exact .inner (List.mem_append_right _ (List.mem_singleton_self signal)) (same ▸ based) fun current =>
        value current ▸ own
  · intro name id found
    rw [adds.devices] at found
    obtain ⟨nonempty,member⟩ := laid.device name id found
    exact ⟨nonempty,older.space _ member⟩
  · intro name id found
    exact laid.listed name id (adds.devices ▸ found)
  · intro s member
    rcases List.mem_append.mp member with early | last
    · obtain ⟨base',parent',based',hung',inside⟩ := laid.signal s early
      exact ⟨base',parent',based'.mono older,hung'.mono older,older.space _ inside⟩
    · rw [List.mem_singleton.mp last]
      refine ⟨base,parent,based,hung.mono older,?_⟩
      rw [adds.space]
      simp
  · intro name nodeId' found
    rw [adds.byNodeId]
    by_cases same : name = signal.name
    · subst same
      cases own.symm.trans found
      exact ⟨signal,by simp,rfl,by simp⟩
    · obtain ⟨s,member,named,registered⟩ := laid.known _ _ ((others same).symm.trans found)
      exact ⟨s,more s member,named,List.mem_cons_of_mem _ registered⟩
  · intro nodeId' s registered
    rw [adds.byNodeId] at registered
    rcases List.mem_cons.mp registered with same | early
    · cases same
      exact ⟨by simp,own⟩
    · obtain ⟨member,known⟩ := laid.byNodeId _ _ early
      exact ⟨more s member,older.nodeIds _ _ known⟩
  · intro first second nodeId' found₁ found₂
    by_cases same₁ : first = signal.name
    · by_cases same₂ : second = signal.name
      · exact same₁.trans same₂.symm
      · rw [same₁] at found₁
        cases own.symm.trans found₁
        exact absurd ((others same₂).symm.trans found₂) (fresh second)
    · by_cases same₂ : second = signal.name
      · rw [same₂] at found₂
        cases own.symm.trans found₂
        exact absurd ((others same₁).symm.trans found₁) (fresh first)
      · exact laid.apart _ _ _ ((others same₁).symm.trans found₁) ((others same₂).symm.trans found₂)
  · -- The new base is no old one.
    have later (s : Signal) (early : s ∈ done) : ¬ Base b' s base := by
      intro of_s
      obtain ⟨x,parent',before,_,inside⟩ := laid.signal s early
      have same := base_unique (adds.distinct laid.distinct) (before.mono older) of_s
      have apart := adds.distinct laid.distinct
      rw [adds.space,List.map_append,List.nodup_append] at apart
      exact apart.2.2 x (List.mem_map.mpr ⟨_,inside,rfl⟩) base (by simp) same
    intro s first t second x of_s of_t
    have unique {y : ν} (other : Base b' signal y) : y = base := base_unique (adds.distinct laid.distinct) other based
    rcases List.mem_append.mp first with early | last
    · rcases List.mem_append.mp second with early' | last'
      · exact laid.based_older older (adds.distinct laid.distinct) early early' of_s of_t
      · rw [List.mem_singleton.mp last'] at of_t
        exact absurd (unique of_t ▸ of_s) (later s early)
    · rw [List.mem_singleton.mp last] at of_s ⊢
      rcases List.mem_append.mp second with early' | last'
      · exact absurd (unique of_s ▸ of_t) (later t early')
      · exact (List.mem_singleton.mp last').symm
  · intro nodeId'
    have stands : (∃ s ∈ done ++ [signal], writable s = true ∧ b'.nodeIds.lookup s.name = some nodeId') ↔
        nodeId' ∈ b.setters ∨ writable signal = true ∧ nodeId' = nodeId := by
      rw [laid.setters nodeId']
      constructor
      · rintro ⟨s,member,settable,found⟩
        rcases List.mem_append.mp member with early | last
        · exact .inl ⟨s,early,settable,(others (new s early)).symm.trans found⟩
        · rw [List.mem_singleton.mp last] at settable found
          cases own.symm.trans found
          exact .inr ⟨settable,rfl⟩
      · rintro (⟨s,early,settable,found⟩ | ⟨settable,rfl⟩)
        · exact ⟨s,more s early,settable,older.nodeIds _ _ found⟩
        · exact ⟨signal,by simp,settable,own⟩
    rw [stands,adds.setters]
    split_ifs with settable
    · simp [settable,or_comm]
    · simp [settable]

theorem Laid.addContractSignal {signal : Signal} (member : signal ∈ all) (added : addContractSignal lib unit b signal = .ok b')
    (new : ∀ s ∈ done, s.name ≠ signal.name) : Laid lib all (done ++ [signal]) b' ∧ b'.methods = b.methods := by
  obtain ⟨⟨parent,b₁⟩,placed,added⟩ := bind_eq_ok.mp added
  obtain ⟨laid₁,hung,same⟩ := laid.parentFor member placed
  dsimp only at added
  split at added
  case h_1 states machine =>
    obtain ⟨base,nodeId,inner,adds⟩ := addStateSignal_adds machine added
    exact ⟨laid₁.adds adds hung new,adds.methods.trans same⟩
  case h_2 plain =>
    obtain ⟨base,nodeId,inner,adds⟩ := addSignal_adds plain added
    exact ⟨laid₁.adds adds hung new,adds.methods.trans same⟩

end

/-- The signals are added one after the other. -/
theorem Laid.signals {all done rest : List Signal} (laid : Laid lib all done b)
    (added : rest.foldlM (AddressSpace.addContractSignal lib unit) b = .ok b')
    (within : ∀ s ∈ rest, s ∈ all) (names : ((done ++ rest).map Signal.name).Nodup) :
    Laid lib all (done ++ rest) b' ∧ b'.methods = b.methods := by
  induction rest generalizing done b with
  | nil =>
    cases added
    rw [List.append_nil]
    exact ⟨laid,rfl⟩
  | cons signal rest ih =>
    rw [List.foldlM_cons] at added
    obtain ⟨b₁,here,later⟩ := bind_eq_ok.mp added
    rw [List.append_cons] at names ⊢
    have new : ∀ s ∈ done, s.name ≠ signal.name := by
      simp only [List.map_append,List.map_cons,List.map_nil,List.nodup_append] at names
      exact fun s member => names.1.2.2 s.name (List.mem_map_of_mem member) signal.name (by simp)
    obtain ⟨here',within⟩ := List.forall_mem_cons.mp within
    obtain ⟨laid₁,same⟩ := laid.addContractSignal here' here new
    obtain ⟨laid₂,unchanged⟩ := ih laid₁ later within names
    exact ⟨laid₂,unchanged.trans same⟩

theorem plant_laid {all : List Signal} (added : add lib ⟨plant lib,lib.objects,qname "Plant"⟩ {} = .ok b) :
    Laid lib all [] b ∧ b.methods = [] := by
  have grows := add_grows added
  have grown := grows.grown
  subst grown
  exact ⟨{
    distinct := grows.distinct List.nodup_nil
    below := grows.below
    place := by
      intro n member
      rw [List.mem_singleton.mp member]
      exact .plant
    root := by simp
    device := by simp
    listed := by simp
    signal := by simp
    known := by simp
    byNodeId := by simp
    apart := by simp
    based := by simp
    setters := by simp },rfl⟩

variable (lib) in
/-- The methods added so far invoke the commands. -/
structure Bound (bound : List (String × CmdCode)) (b : Built ν) : Prop where
  method : ∀ command ∈ bound, (lib.named ("Plant." ++ command.1),command.2) ∈ b.methods ∧
    ⟨lib.named ("Plant." ++ command.1),plant lib,qname command.1⟩ ∈ b.space
  command : ∀ id code, (id,code) ∈ b.methods → ∃ command ∈ bound, command.2 = code ∧ ⟨id,plant lib,qname command.1⟩ ∈ b.space

theorem Laid.addMethod {all done : List Signal} {bound : List (String × CmdCode)} {command : String × CmdCode}
    (laid : Laid lib all done b) (binds : Bound lib bound b) (listed : command ∈ commands)
    (added : AddressSpace.addMethod lib b command = .ok b') : Laid lib all done b' ∧ Bound lib (bound ++ [command]) b' := by
  obtain ⟨b₁,node,added⟩ := bind_eq_ok.mp added
  cases added
  have grows := add_grows node
  have grown := grows.grown
  subst grown
  have older : Older b { b with
      space := b.space ++ [⟨lib.named ("Plant." ++ command.1),plant lib,qname command.1⟩]
      methods := (lib.named ("Plant." ++ command.1),command.2) :: b.methods } :=
    ⟨fun n member => List.mem_append_left _ member,fun _ _ found => found,fun _ _ found => found,
      fun entry member => List.mem_cons_of_mem _ member⟩
  refine ⟨⟨grows.distinct laid.distinct,?_,?_,older.space _ laid.root,?_,laid.listed,?_,laid.known,laid.byNodeId,laid.apart,?_,
    laid.setters⟩,?_,?_⟩
  · intro n member
    rcases List.mem_append.mp member with early | new
    · exact laid.below n early
    · exact grows.below n new
  · intro n member
    rcases List.mem_append.mp member with early | new
    · exact (laid.place n early).mono older fun _ inside => inside
    · rw [List.mem_singleton.mp new]
      exact .method listed
  · intro name id found
    obtain ⟨nonempty,member⟩ := laid.device name id found
    exact ⟨nonempty,older.space _ member⟩
  · intro s member
    obtain ⟨base,parent,based,hung,inside⟩ := laid.signal s member
    exact ⟨base,parent,based.mono older,hung.mono older,older.space _ inside⟩
  · exact fun s first t second _ => laid.based_older older (grows.distinct laid.distinct) first second
  · intro command' member
    rcases List.mem_append.mp member with early | last
    · obtain ⟨bound',inside⟩ := binds.method command' early
      exact ⟨older.methods _ bound',older.space _ inside⟩
    · rw [List.mem_singleton.mp last]
      exact ⟨by simp,by simp⟩
  · intro id code entry
    rcases List.mem_cons.mp entry with same | early
    · cases same
      exact ⟨command,by simp,rfl,by simp⟩
    · obtain ⟨command',member,same,inside⟩ := binds.command id code early
      exact ⟨command',List.mem_append_left _ member,same,older.space _ inside⟩

theorem Laid.methods {all done : List Signal} {bound rest : List (String × CmdCode)} (laid : Laid lib all done b)
    (binds : Bound lib bound b) (listed : ∀ command ∈ rest, command ∈ commands)
    (added : rest.foldlM (AddressSpace.addMethod lib) b = .ok b') : Laid lib all done b' ∧ Bound lib (bound ++ rest) b' := by
  induction rest generalizing bound b with
  | nil =>
    cases added
    rw [List.append_nil]
    exact ⟨laid,binds⟩
  | cons command rest ih =>
    rw [List.foldlM_cons] at added
    obtain ⟨b₁,here,later⟩ := bind_eq_ok.mp added
    obtain ⟨laid₁,binds₁⟩ := laid.addMethod binds (listed command (by simp)) here
    rw [List.append_cons]
    exact ih laid₁ binds₁ (fun other member => listed other (List.mem_cons_of_mem _ member)) later

/-! ### The whole -/

section
variable {contract : Contract} (valid : validate contract = .ok ()) (built : buildAddressSpace lib unit contract = .ok b)
include valid built

/-- The address space of a valid contract has the nodes of its signals and the methods. -/
theorem built_laid : Laid lib contract.signals contract.signals b ∧ Bound lib commands b := by
  obtain ⟨b₁,root,built⟩ := bind_eq_ok.mp built
  obtain ⟨b₂,signals,methods⟩ := bind_eq_ok.mp built
  obtain ⟨start,empty⟩ := plant_laid root
  obtain ⟨laid,unchanged⟩ := start.signals signals (fun _ member => member) (names_distinct (validate_ok valid).2.1)
  have unbound : Bound lib [] b₂ := ⟨by simp,by simp [unchanged,empty]⟩
  exact laid.methods unbound (fun _ member => member) methods

/-- The built address space is a server: every signal of the contract has a node of its own, which is
    looked up by the signal's name and leads back to it, and exactly the nodes of the signals that
    clients may write have a setter. -/
theorem built_serves [DecidableEq ν] : ∃ gateway : Gateway ν, gateway.contract = contract ∧
    (∀ name, GatewayServer.nodeIds gateway name = Plc.lookup (b.nodeIds.lookup name)) ∧
    (∀ node, GatewayServer.byNodeId gateway node = Plc.lookup (b.byNodeId.lookup node)) ∧
    ∀ node, hasSetter gateway node = decide (node ∈ b.setters) := by
  obtain ⟨laid,_⟩ := built_laid valid built
  have known (s : Signal) (member : s ∈ contract.signals) : ∃ nodeId, b.nodeIds.lookup s.name = some nodeId := by
    obtain ⟨_,_,⟨nodeId,found,_⟩,_⟩ := laid.signal s member
    exact ⟨nodeId,found⟩
  let nodeId (s : Signal) : ν := (b.nodeIds.lookup s.name).getD lib.objects
  have node {s : Signal} {id : ν} (found : b.nodeIds.lookup s.name = some id) : nodeId s = id := by simp [nodeId,found]
  have names : (contract.signals.map Signal.name).Nodup := names_distinct (validate_ok valid).2.1
  let gateway : Gateway ν := {
    contract := contract
    valid := valid
    nodeId := nodeId
    apart := by
      intro s listed t listed' same
      obtain ⟨first,found⟩ := known s listed
      obtain ⟨second,found'⟩ := known t listed'
      rw [node found,node found'] at same
      subst same
      exact List.inj_on_of_nodup_map names listed listed' (laid.apart _ _ _ found found') }
  have back (id : ν) : GatewayServer.byNodeId gateway id = Plc.lookup (b.byNodeId.lookup id) := by
    cases found : b.byNodeId.lookup id with
    | some s =>
      obtain ⟨before,after,entries,_⟩ := List.lookup_eq_some_iff.mp found
      obtain ⟨member,held⟩ := laid.byNodeId id s (by simp [entries])
      have listed := byNodeId_listed gateway member
      rw [show gateway.nodeId s = id from node held] at listed
      exact listed
    | none =>
      have nothing : gateway.contract.signals.reverse.find? (fun s => gateway.nodeId s = id) = none := by
        rw [List.find?_eq_none]
        intro s member holds
        have listed := List.mem_reverse.mp member
        obtain ⟨id',found'⟩ := known s listed
        have same : id' = id := (node found').symm.trans (of_decide_eq_true holds)
        obtain ⟨_,_,_,registered⟩ := laid.known _ _ found'
        have absent := List.lookup_eq_none_iff.mp found (id',_) registered
        simp [same] at absent
      rw [GatewayServer.byNodeId,nothing]
  refine ⟨gateway,rfl,fun name => ?_,back,fun id => ?_⟩
  · cases found : b.nodeIds.lookup name with
    | some id =>
      obtain ⟨s,member,rfl,_⟩ := laid.known _ _ found
      rw [nodeIds_listed gateway member]
      exact congrArg Except.ok (node found)
    | none =>
      have nothing : contract.signals.reverse.find? (fun s => s.name = name) = none := by
        rw [List.find?_eq_none]
        intro s member holds
        obtain ⟨id,found'⟩ := known s (List.mem_reverse.mp member)
        rw [of_decide_eq_true holds,found] at found'
        cases found'
      simp only [GatewayServer.nodeIds,Plc.byName,gateway,nothing]
      rfl
  · rw [hasSetter,back id]
    cases found : b.byNodeId.lookup id with
    | some s =>
      obtain ⟨before,after,entries,_⟩ := List.lookup_eq_some_iff.mp found
      obtain ⟨member,held⟩ := laid.byNodeId id s (by simp [entries])
      have only (t : Signal) (listed : t ∈ contract.signals) (found' : b.nodeIds.lookup t.name = some id) : t = s :=
        List.inj_on_of_nodup_map names listed member (laid.apart _ _ _ found' held)
      show writable s = _
      rw [Bool.eq_iff_iff,decide_eq_true_iff,laid.setters id]
      constructor
      · exact fun settable => ⟨s,member,settable,held⟩
      · rintro ⟨t,listed,settable,found'⟩
        exact only t listed found' ▸ settable
    | none =>
      show false = _
      rw [eq_comm,decide_eq_false_iff_not,laid.setters id]
      rintro ⟨t,_,_,found'⟩
      obtain ⟨_,_,_,registered⟩ := laid.known _ _ found'
      have absent := List.lookup_eq_none_iff.mp found (id,_) registered
      simp at absent

end

end

/-! ### The shipped contract -/

inductive NodeId
  | objects
  | text (name : String)
  | numeric (n : ℕ)
deriving DecidableEq

/-- A library that numbers its own nodes and refuses only ids that are taken. -/
def numbering : Library NodeId where
  objects := .objects
  named := .text
  fromString text :=
    match text.toList with
    | 's' :: '=' :: name => .ok (.text (String.ofList name))
    | _ => .error (.user "UaStringParsingError" text)
  identifier
    | .text name => name
    | .numeric n => toString n
    | .objects => "85"
  fresh space := .numeric space.length
  refuses space node :=
    if node.id ∈ space.map Node.id ∨ node.id = .objects then some (.user "BadNodeIdExists" "") else none
  taken := by
    intro space node free
    split_ifs at free with found
    exact not_or.mp found
  getChild space node path :=
    match find space path node with
    | some child => .ok child
    | none => .error (.user "BadNoMatch" "")
  child space node path x leads only := by rw [find_only leads only]
  target := by
    intro space node path x reached
    split at reached
    case h_1 found =>
      cases reached
      exact find_leads found
    case h_2 => cases reached

def units (signal : Signal) : Option String :=
  if signal = Shipped.speedSetpoint ∨ signal = Shipped.actualSpeed then some "m/s"
  else if signal = Shipped.rampTime then some "s"
  else if signal = Shipped.position then some "m"
  else none

end MockPlant.AddressSpace
