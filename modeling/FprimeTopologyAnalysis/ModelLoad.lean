/-
FprimeTopologyAnalysis.ModelLoad — what a loaded graph says of its model
(`_select_topology`, `load` and `blocking_ports` of `topology_graph.py`).

`selectTopology` picks the topology, by its name or as the one deployment;
`select_exact` says when it does, and that it does not depend on the order
of the map. The loader goes over each component's ports and over all
connections and fills tables by the way. `load_exact` reads the tables back:
the ports of an instance are those the model declares, under the kinds it
declares, and no connection is lost, doubled or made up.
-/
import FprimeTopologyAnalysis.TopologyModel

namespace FprimeTopologyAnalysis

open Library

/-! ## Choosing the topology -/

/-- A topology of the analysis: its names, whether it is declared a
deployment, and its contents. -/
structure NamedTopology where
  qualifiedName : String
  unqualifiedName : String
  isDeployment : Bool
  topology : Topology

/-- Why no topology is chosen. -/
inductive SelectError where
  | noTopology
  | noneNamed (wanted : String) (available : List String)
  | ambiguous (wanted : String) (names : List String)
  | severalDeployments (names : List String)
  | noDeployment (available : List String)
  deriving DecidableEq

namespace NamedTopology

/-- The topology answers to a name: its qualified name or the end of it
after a dot, or its unqualified name. -/
def Answers (t : NamedTopology) (wanted : String) : Prop :=
  t.qualifiedName = wanted ∨ ('.' :: wanted.toList) <:+ t.qualifiedName.toList
    ∨ t.unqualifiedName = wanted

instance (t : NamedTopology) (wanted : String) : Decidable (t.Answers wanted) :=
  inferInstanceAs (Decidable (_ ∨ _ ∨ _))

end NamedTopology

/-- `sorted(str(t.get_qualified_name()) for t in topologies)`. -/
def namesOf (ts : List NamedTopology) : List String :=
  (ts.map NamedTopology.qualifiedName).insertionSort (· ≤ ·)

/-- `_select_topology`. An empty name counts as none. -/
def selectTopology (topologies : List NamedTopology) (topologyName : Option String) :
    Except SelectError NamedTopology :=
  if topologies = [] then .error .noTopology
  else
    match topologyName.filter fun name => name ≠ "" with
    | some wanted =>
      match topologies.filter fun t => t.Answers wanted with
      | [] => .error (.noneNamed wanted (namesOf topologies))
      | [t] => .ok t
      | several => .error (.ambiguous wanted (namesOf several))
    | none =>
      match topologies.filter fun t => t.isDeployment with
      | [t] => .ok t
      | [] =>
        match topologies with
        | [t] => .ok t
        | _ => .error (.noDeployment (namesOf topologies))
      | several => .error (.severalDeployments (namesOf several))

/-- The topologies among which the choice has to be unique: those that
answer to the name, or without one the deployments, or all if there are
none. -/
def eligible (topologies : List NamedTopology) (topologyName : Option String) :
    List NamedTopology :=
  match topologyName.filter fun name => name ≠ "" with
  | some wanted => topologies.filter fun t => t.Answers wanted
  | none =>
    if topologies.filter (fun t => t.isDeployment) = [] then topologies
    else topologies.filter fun t => t.isDeployment

section Select

variable {topologies topologies' : List NamedTopology} {topologyName : Option String}
  {t : NamedTopology}

theorem selectTopology_ok_iff :
    selectTopology topologies topologyName = .ok t ↔ eligible topologies topologyName = [t] := by
  unfold selectTopology eligible
  by_cases hnil : topologies = []
  · cases topologyName.filter fun name => name ≠ "" <;> simp [hnil]
  · rw [if_neg hnil]
    cases topologyName.filter fun name => name ≠ "" with
    | some wanted =>
      dsimp only
      split
      · rename_i hnone
        simp [hnone]
      · rename_i t' hone
        simp [hone]
      · rename_i several hnone hone
        simp only [reduceCtorEq, false_iff]
        exact fun heq => hone t heq
    | none =>
      dsimp only
      split
      · rename_i t' hone
        simp [hone]
      · rename_i hnone
        rw [if_pos hnone]
        split
        · simp
        · rename_i hmany
          simp only [reduceCtorEq, false_iff]
          exact fun heq => hmany t heq
      · rename_i several hone hnone
        rw [if_neg hnone]
        simp only [reduceCtorEq, false_iff]
        exact fun heq => hone t heq

theorem namesOf_perm {ts ts' : List NamedTopology} (h : ts.Perm ts') : namesOf ts = namesOf ts' :=
  List.Perm.eq_of_pairwise (fun _ _ _ _ hab hba => le_antisymm hab hba)
    (List.pairwise_insertionSort (· ≤ ·) _) (List.pairwise_insertionSort (· ≤ ·) _)
    (((List.perm_insertionSort _ _).trans (h.map _)).trans (List.perm_insertionSort _ _).symm)

/-- Three cases of a list that its permutations share. -/
theorem perm_cases {α : Type} {as as' : List α} (h : as.Perm as') :
    (as = [] ∧ as' = []) ∨ (∃ a, as = [a] ∧ as' = [a])
      ∨ ∃ a b rest a' b' rest', as = a :: b :: rest ∧ as' = a' :: b' :: rest' := by
  match as, as', h with
  | [], as', h => exact .inl ⟨rfl, List.nil_perm.mp h⟩
  | [a], as', h => exact .inr (.inl ⟨a, rfl, List.singleton_perm.mp h |>.symm⟩)
  | a :: b :: rest, as', h =>
    match as', h.length_eq with
    | a' :: b' :: rest', _ => exact .inr (.inr ⟨a, b, rest, a', b', rest', rfl, rfl⟩)

/-- The order of the topologies does not matter, not even to an error. -/
theorem selectTopology_perm (h : topologies.Perm topologies') :
    selectTopology topologies topologyName = selectTopology topologies' topologyName := by
  have hnil : topologies = [] ↔ topologies' = [] := by
    constructor
    · exact fun hnil => List.nil_perm.mp (hnil ▸ h)
    · exact fun hnil => List.perm_nil.mp (hnil ▸ h)
  unfold selectTopology
  by_cases hempty : topologies = []
  · rw [if_pos hempty, if_pos (hnil.mp hempty)]
  · rw [if_neg hempty, if_neg fun h' => hempty (hnil.mpr h')]
    cases topologyName.filter fun name => name ≠ "" with
    | some wanted =>
      have hfilter := h.filter fun t => decide (t.Answers wanted)
      have hnames := namesOf_perm hfilter
      rcases perm_cases hfilter with ⟨hl, hr⟩ | ⟨t, hl, hr⟩ | ⟨a, b, rest, a', b', rest', hl, hr⟩
      · simp [hl, hr, namesOf_perm h]
      · simp [hl, hr]
      · rw [hl, hr] at hnames
        simp [hl, hr, hnames]
    | none =>
      have hfilter := h.filter fun t => t.isDeployment
      have hnames := namesOf_perm hfilter
      rcases perm_cases hfilter with ⟨hl, hr⟩ | ⟨t, hl, hr⟩ | ⟨a, b, rest, a', b', rest', hl, hr⟩
      · have hall := namesOf_perm h
        simp only [hl, hr]
        rcases perm_cases h with ⟨hl', _⟩ | ⟨t, hl', hr'⟩ | ⟨a, b, rest, a', b', rest', hl', hr'⟩
        · exact absurd hl' hempty
        · simp [hl', hr']
        · rw [hl', hr'] at hall
          simp [hl', hr', hall]
      · simp [hl, hr]
      · rw [hl, hr] at hnames
        simp [hl, hr, hnames]

end Select

/-- **Which topology is chosen.** One is chosen exactly when it is the only
eligible one, and then only it; and the order in which the analysis lists
the topologies does not matter, not even to an error. -/
theorem select_exact (topologies : List NamedTopology) (topologyName : Option String) :
    (∀ t, selectTopology topologies topologyName = .ok t
      ↔ eligible topologies topologyName = [t])
    ∧ ∀ topologies', topologies.Perm topologies' →
      selectTopology topologies topologyName = selectTopology topologies' topologyName :=
  ⟨fun _ => selectTopology_ok_iff, fun _ h => selectTopology_perm h⟩

/-! ## The ports of an instance -/

namespace ComponentInstance

variable {ci : ComponentInstance} {info : InstanceInfo}

/-- What the loop leaves of the output ports. -/
theorem outputPorts_addPort (port : PortName × PortInstance) :
    (ci.addPort info port).outputPorts
      = if port.2.direction = some .output then info.outputPorts ++ [port.1]
        else info.outputPorts := by
  have hnote : (info.notePort port.1 port.2).outputPorts = info.outputPorts := by
    unfold InstanceInfo.notePort
    split
    · rfl
    · split <;> rfl
  have hqueue : ∀ i : InstanceInfo, (i.noteQueue port.1 port.2).outputPorts = i.outputPorts := by
    intro i
    unfold InstanceInfo.noteQueue
    dsimp only
    split <;> rfl
  unfold addPort
  dsimp only
  split
  · simp [hnote]
  · split <;> split <;> simp [hnote, hqueue]

/-- And of the input ports. -/
theorem inputPorts_addPort (port : PortName × PortInstance) :
    (ci.addPort info port).inputPorts
      = if port.2.direction = some .output ∨ ci.inputSyncKinds port.2.specifier = ∅
        then info.inputPorts
        else info.inputPorts.set port.1 (ci.inputSyncKinds port.2.specifier) := by
  have hnote : (info.notePort port.1 port.2).inputPorts = info.inputPorts := by
    unfold InstanceInfo.notePort
    split
    · rfl
    · split <;> rfl
  have hqueue : ∀ i : InstanceInfo, (i.noteQueue port.1 port.2).inputPorts = i.inputPorts := by
    intro i
    unfold InstanceInfo.noteQueue
    dsimp only
    split <;> rfl
  unfold addPort
  dsimp only
  by_cases hout : port.2.direction = some .output
  · simp [hout, hnote]
  · by_cases hkinds : ci.inputSyncKinds port.2.specifier = ∅
    · simp only [hout, hkinds, if_true, if_false, or_true]
      split <;> simp [hnote, hqueue]
    · simp only [hout, hkinds, if_false, or_self]
      split <;> simp [hnote, hqueue]

/-- The output ports of an instance are those of its component. -/
theorem mem_outputPorts {p : PortName} :
    p ∈ ci.info.outputPorts
      ↔ ∃ port, ci.portMap.get? p = some port ∧ port.direction = some .output := by
  have hfold : ∀ (ports : List (PortName × PortInstance)) (info : InstanceInfo),
      (ports.foldl ci.addPort info).outputPorts = info.outputPorts
        ++ (ports.filter fun port => port.2.direction = some .output).map Prod.fst := by
    intro ports
    induction ports with
    | nil => simp
    | cons port ports ih =>
      intro info
      rw [List.foldl_cons, ih, outputPorts_addPort]
      by_cases hout : port.2.direction = some .output
      · simp [hout]
      · simp [hout]
  simp only [ComponentInstance.info, hfold, List.nil_append, List.mem_map, List.mem_filter,
    decide_eq_true_eq]
  constructor
  · rintro ⟨⟨q, port⟩, ⟨hmem, hout⟩, rfl⟩
    exact ⟨port, (ci.portMap.get?_eq_some_iff _ _).mpr hmem, hout⟩
  · rintro ⟨port, hget, hout⟩
    exact ⟨(p, port), ⟨(ci.portMap.get?_eq_some_iff _ _).mp hget, hout⟩, rfl⟩

/-- Its input ports are those it can be entered at, under some kind. -/
theorem get?_inputPorts {p : PortName} {kinds : Finset SyncKind} :
    ci.info.inputPorts.get? p = some kinds
      ↔ kinds ≠ ∅ ∧ ∃ port, ci.portMap.get? p = some port ∧ port.direction ≠ some .output
        ∧ ci.inputSyncKinds port.specifier = kinds := by
  have hfold : ∀ (ports : List (PortName × PortInstance)), (ports.map Prod.fst).Nodup →
      ∀ info : InstanceInfo, (ports.foldl ci.addPort info).inputPorts.get? p
        = match ports.find? fun port => port.1 = p with
          | none => info.inputPorts.get? p
          | some port =>
            if port.2.direction = some .output ∨ ci.inputSyncKinds port.2.specifier = ∅
            then info.inputPorts.get? p else some (ci.inputSyncKinds port.2.specifier) := by
    intro ports
    induction ports with
    | nil => simp
    | cons port ports ih =>
      intro hnd info
      rw [List.map_cons, List.nodup_cons] at hnd
      rw [List.foldl_cons, ih hnd.2, inputPorts_addPort]
      by_cases hp : port.1 = p
      · have hrest : (ports.find? fun port => decide (port.1 = p)) = none := by
          rw [List.find?_eq_none]
          intro port' hport' heq
          exact hnd.1 (hp ▸ of_decide_eq_true heq ▸ List.mem_map_of_mem hport')
        simp only [hrest, List.find?_cons, hp, decide_true]
        split <;> simp
      · have hne : ¬ p = port.1 := fun h => hp h.symm
        have hkept : (if port.2.direction = some .output ∨ ci.inputSyncKinds port.2.specifier = ∅
            then info.inputPorts
            else info.inputPorts.set port.1 (ci.inputSyncKinds port.2.specifier)).get? p
              = info.inputPorts.get? p := by
          split
          · rfl
          · rw [Dict.get?_set, if_neg hne]
        simp only [List.find?_cons, hp, decide_false, hkept]
  have hinput : ci.info.inputPorts.get? p = _ :=
    hfold ci.portMap.entries ci.portMap.nodupKeys _
  rw [hinput]
  have hget : ci.portMap.get? p = (ci.portMap.entries.find? fun port => port.1 = p).map Prod.snd :=
    rfl
  cases hfind : ci.portMap.entries.find? fun port => port.1 = p with
  | none =>
    rw [hfind] at hget
    simp [hget]
  | some port =>
    rw [hfind] at hget
    simp only [hget, Option.map_some, Option.some.injEq, exists_eq_left']
    by_cases hout : port.2.direction = some .output
    · simp [hout]
    · by_cases hkinds : ci.inputSyncKinds port.2.specifier = ∅
      · simp only [hout, hkinds, or_true, if_true]
        constructor
        · exact fun h => by cases h
        · rintro ⟨hne, _, rfl⟩
          exact absurd rfl hne
      · simp only [hout, hkinds, or_self, if_false, Option.some.injEq]
        constructor
        · rintro rfl
          exact ⟨hkinds, hout, rfl⟩
        · exact fun h => h.2.2

theorem mem_kindsOf {p : PortName} {kind : SyncKind} :
    kind ∈ ci.info.kindsOf p ↔ ∃ port, ci.portMap.get? p = some port
      ∧ port.direction ≠ some .output ∧ kind ∈ ci.inputSyncKinds port.specifier := by
  unfold InstanceInfo.kindsOf
  constructor
  · intro h
    cases hget : ci.info.inputPorts.get? p with
    | none => simp [hget] at h
    | some kinds =>
      rw [hget, Option.getD_some] at h
      obtain ⟨_, port, hport, hout, rfl⟩ := get?_inputPorts.mp hget
      exact ⟨port, hport, hout, h⟩
  · rintro ⟨port, hport, hout, hk⟩
    have hget := get?_inputPorts.mpr ⟨Finset.ne_empty_of_mem hk, port, hport, hout, rfl⟩
    rw [hget]
    exact hk

/-- The overflow behaviours that the loop records. -/
theorem portQueueFull_addPort (port : PortName × PortInstance) :
    (ci.addPort info port).portQueueFull
      = if port.2.direction = some .output then info.portQueueFull
        else info.portQueueFull.set port.1 port.2.queueFullBehavior := by
  have hnote : (info.notePort port.1 port.2).portQueueFull = info.portQueueFull := by
    unfold InstanceInfo.notePort
    split
    · rfl
    · split <;> rfl
  have hqueue : ∀ i : InstanceInfo, (i.noteQueue port.1 port.2).portQueueFull
      = i.portQueueFull.set port.1 port.2.queueFullBehavior := by
    intro i
    unfold InstanceInfo.noteQueue
    dsimp only
    split <;> rfl
  unfold addPort
  dsimp only
  split
  · simp [hnote]
  · split <;> split <;> simp [hnote, hqueue]

/-- Every port that is no output has one. -/
theorem get?_portQueueFull {p : PortName} {behavior : QueueFull} :
    ci.info.portQueueFull.get? p = some behavior
      ↔ ∃ port, ci.portMap.get? p = some port ∧ port.direction ≠ some .output
        ∧ port.queueFullBehavior = behavior := by
  have hfold : ∀ (ports : List (PortName × PortInstance)) (info : InstanceInfo),
      (ports.foldl ci.addPort info).portQueueFull
        = ((ports.filter fun port => port.2.direction ≠ some .output).map fun port =>
            (port.1, port.2.queueFullBehavior)).foldl (fun d e => d.set e.1 e.2)
            info.portQueueFull := by
    intro ports
    induction ports with
    | nil => exact fun _ => rfl
    | cons port ports ih =>
      intro info
      rw [List.foldl_cons, ih, portQueueFull_addPort]
      by_cases hout : port.2.direction = some .output
      · simp [hout]
      · simp [hout]
  have hnd : (((ci.portMap.entries.filter fun port => port.2.direction ≠ some .output).map
      fun port => (port.1, port.2.queueFullBehavior)).map Prod.fst).Nodup := by
    rw [List.map_map]
    exact ci.portMap.nodupKeys.sublist (List.filter_sublist.map Prod.fst)
  have hinfo : ci.info.portQueueFull = Dict.ofList
      ((ci.portMap.entries.filter fun port => port.2.direction ≠ some .output).map fun port =>
        (port.1, port.2.queueFullBehavior)) := hfold ci.portMap.entries _
  rw [hinfo, Dict.get?_ofList_eq_some_iff hnd]
  simp only [List.mem_map, List.mem_filter, decide_eq_true_eq, Prod.mk.injEq]
  constructor
  · rintro ⟨⟨q, port⟩, ⟨hmem, hout⟩, rfl, rfl⟩
    exact ⟨port, (ci.portMap.get?_eq_some_iff _ _).mpr hmem, hout, rfl⟩
  · rintro ⟨port, hget, hout, rfl⟩
    exact ⟨(p, port), ⟨(ci.portMap.get?_eq_some_iff _ _).mp hget, hout⟩, rfl, rfl⟩

end ComponentInstance

/-- `blocking_ports`: async inputs declared `queue full block`. -/
def blockingPorts (g : TopologyGraph) : List PortKey :=
  (g.instances.entries.insertionSort fun a b => a.1 ≤ b.1).flatMap fun e =>
    ((e.2.portQueueFull.entries.insertionSort fun a b => a.1 ≤ b.1).filter fun port =>
      port.2 = .block ∧ .async ∈ e.2.kindsOf port.1).map fun port => ⟨e.1, port.1⟩

/-! ## The loaded graph -/

namespace Topology

variable {t : Topology} {flow : PortFlowMap}

/-- The wiring, connection by connection. -/
theorem pairs_connectionTable :
    t.connectionTable.pairs.Perm (t.resolvedConnections.map Connection.wire) := by
  refine List.Perm.trans ?_ (Dict.pairs_group_perm (t.resolvedConnections.map Connection.wire))
  rw [List.perm_iff_count]
  rintro ⟨source, dest⟩
  rw [connectionTable, Dict.count_pairs, Dict.count_pairs, Dict.get?_mapValues]
  cases (Dict.group (t.resolvedConnections.map Connection.wire)).get? source with
  | none => rfl
  | some dests => exact (List.perm_insertionSort PortKey.le dests).count_eq dest

theorem mem_connectedInputs {p : PortKey} :
    p ∈ (t.load flow).connectedInputs ↔ ∃ c ∈ t.resolvedConnections, c.dest.port = p := by
  have hpairs : p ∈ (t.load flow).connectedInputs ↔ ∃ source, (source, p) ∈ t.connectionTable.pairs := by
    simp only [TopologyGraph.connectedInputs, load, Dict.values, Dict.pairs, List.mem_flatten,
      List.mem_map, List.mem_flatMap, Prod.mk.injEq]
    constructor
    · rintro ⟨_, ⟨e, he, rfl⟩, hp⟩
      exact ⟨e.1, e, he, p, hp, rfl, rfl⟩
    · rintro ⟨source, e, he, q, hq, rfl, rfl⟩
      exact ⟨e.2, ⟨e, he, rfl⟩, hq⟩
  rw [hpairs]
  simp only [pairs_connectionTable.mem_iff, List.mem_map, Connection.wire, Prod.mk.injEq]
  constructor
  · rintro ⟨source, c, hc, _, rfl⟩
    exact ⟨c, hc, rfl⟩
  · rintro ⟨c, hc, rfl⟩
    exact ⟨c.source.port, c, hc, rfl, rfl⟩

theorem mem_blockingPorts {p : PortKey} :
    p ∈ blockingPorts (t.load flow).toTopologyGraph
      ↔ ∃ ci port, .component ci ∈ t.instanceMap ∧ ci.qualifiedName = p.inst
        ∧ ci.portMap.get? p.port = some port ∧ port.direction ≠ some .output
        ∧ port.queueFullBehavior = .block ∧ .async ∈ ci.inputSyncKinds port.specifier := by
  have hinstance : ∀ name info, (name, info) ∈ (t.load flow).instances.entries
      ↔ ∃ ci, .component ci ∈ t.instanceMap ∧ ci.qualifiedName = name ∧ ci.info = info := by
    intro name info
    rw [← Dict.get?_eq_some_iff]
    exact get?_buildInstances
  simp only [blockingPorts, List.mem_flatMap, List.mem_insertionSort, List.mem_map,
    List.mem_filter, decide_eq_true_eq]
  constructor
  · rintro ⟨⟨name, info⟩, he, ⟨q, behavior⟩, ⟨hfull, rfl, hasync⟩, rfl⟩
    obtain ⟨ci, hci, rfl, rfl⟩ := (hinstance _ _).mp he
    obtain ⟨port, hget, hout, hblock⟩ := ComponentInstance.get?_portQueueFull.mp
      ((Dict.get?_eq_some_iff _ _ _).mpr hfull)
    obtain ⟨port', hget', _, hk⟩ := ComponentInstance.mem_kindsOf.mp hasync
    obtain rfl := Option.some.inj (hget.symm.trans hget')
    exact ⟨ci, port, hci, rfl, hget, hout, hblock, hk⟩
  · rintro ⟨ci, port, hci, hname, hget, hout, hblock, hk⟩
    refine ⟨(p.inst, ci.info), (hinstance _ _).mpr ⟨ci, hci, hname, rfl⟩, (p.port, .block), ⟨?_,
      rfl, ComponentInstance.mem_kindsOf.mpr ⟨port, hget, hout, hk⟩⟩, rfl⟩
    exact (Dict.get?_eq_some_iff _ _ _).mp
      (ComponentInstance.get?_portQueueFull.mpr ⟨port, hget, hout, hblock⟩)

end Topology

/-- **A loaded graph is its model.** Its instances are the model's, with the
ports their components declare and the kinds these can be dispatched under;
its connections are those of the model that resolve, each as often; the
inputs that count as driven are those some connection ends at; and the
blocking ports are the async inputs that block when their queue is full. -/
theorem load_exact (t : Topology) (flow : PortFlowMap) :
    (∀ name info, (t.load flow).instances.get? name = some info
      ↔ ∃ ci, .component ci ∈ t.instanceMap ∧ ci.qualifiedName = name ∧ ci.info = info)
    ∧ (∀ (ci : ComponentInstance) p, (p ∈ ci.info.outputPorts
        ↔ ∃ port, ci.portMap.get? p = some port ∧ port.direction = some .output)
      ∧ ∀ kind, kind ∈ ci.info.kindsOf p ↔ ∃ port, ci.portMap.get? p = some port
        ∧ port.direction ≠ some .output ∧ kind ∈ ci.inputSyncKinds port.specifier)
    ∧ (t.load flow).connectionList.Perm t.resolvedConnections
    ∧ (t.load flow).connections.pairs.Perm (t.resolvedConnections.map Connection.wire)
    ∧ (∀ p, p ∈ (t.load flow).connectedInputs ↔ ∃ c ∈ t.resolvedConnections, c.dest.port = p)
    ∧ ∀ p, p ∈ blockingPorts (t.load flow).toTopologyGraph
      ↔ ∃ ci port, .component ci ∈ t.instanceMap ∧ ci.qualifiedName = p.inst
        ∧ ci.portMap.get? p.port = some port ∧ port.direction ≠ some .output
        ∧ port.queueFullBehavior = .block ∧ .async ∈ ci.inputSyncKinds port.specifier :=
  ⟨fun _ _ => Topology.get?_buildInstances,
    fun _ _ => ⟨ComponentInstance.mem_outputPorts, fun _ => ComponentInstance.mem_kindsOf⟩,
    List.perm_insertionSort _ _, Topology.pairs_connectionTable,
    fun _ => Topology.mem_connectedInputs, fun _ => Topology.mem_blockingPorts⟩

end FprimeTopologyAnalysis
