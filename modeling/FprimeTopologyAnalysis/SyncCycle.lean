/-
FprimeTopologyAnalysis.SyncCycle — the sync cycle check of `checks.py`.

The check follows hops into ports that are purely sync and reports a
handler the path comes back to. Of the paths that close it reports the
first of each key, and the key is the set of the first name components of
the whole path. The names are qualified, so the first component is that of
the topology and not of the instance, and the lead-in counts as well.

`closings` lists the closing paths in the order of the walk, and the
findings are those of the first of each key (`findings_eq_firsts`). Which of
several paths with one key is the first depends on that order. The check
keeps its promise (`Reports`) where names tell the short cycles apart, from
one another and from the paths that end elsewhere (`reports_of_apart`), and
only where some paths into them have different keys.
-/
import FprimeTopologyAnalysis.Checks
import FprimeTopologyAnalysis.ChainWalk
import FprimeTopologyAnalysis.Library.SimplePaths

namespace FprimeTopologyAnalysis

open Library

namespace SyncCycle

/-! ## The check -/

/-- `step.split(".")[0]`. -/
def firstComponent (step : String) : String :=
  String.ofList (step.toList.takeWhile (· ≠ '.'))

/-- `cycle` of `_walk`: the key a closing path is reported under. -/
def cycleKey (path : List String) : Finset String := (path.map firstComponent).toFinset

/-- `path[-n:]`. -/
def lastOf (n : Nat) (path : List String) : List String := path.drop (path.length - n)

/-- What is reported for a closing path. -/
def finding (path : List String) : RawFinding :=
  ⟨.warning, " -> ".intercalate (lastOf 6 path),
    "These handlers call each other through sync ports only. No mutex is taken, so this is " ++
      "not a deadlock - it is unbounded recursion on a fixed stack if the chain does not " ++
      "terminate on a data condition.",
    lastOf 8 path⟩

/-- `findings` and `reported`. -/
structure Reported where
  findings : List RawFinding
  keys : Finset (Finset String)

/-- A revisit of the current path. -/
def report (s : Reported) (path : List String) : Reported :=
  if cycleKey path ∈ s.keys then s
  else ⟨s.findings ++ [finding path], insert (cycleKey path) s.keys⟩

/-- The bound on `len(path)`. -/
def depthBound : Nat := 24

/-- `dest_info.input_ports.get(dest.port) == {SyncKind.SYNC}`. -/
def syncOnly (hop : OutwardHop) : Bool :=
  hop.destInfo.inputPorts.get? hop.dest.port = some {.sync}

/-- `_walk`. The first argument is how far `len(path)` is from the bound:
at zero the path is too long to go on. -/
def walk (g : TopologyGraph) :
    Nat → Handler → List String → Finset Handler → Reported → Except UnresolvedFlowError Reported
  | 0, node, path, onPath, s => .ok (if node ∈ onPath then report s path else s)
  | room + 1, node, path, onPath, s =>
    if node ∈ onPath then .ok (report s path)
    else
      match g.outwardHops node.1 node.2 with
      | .error e => .error e
      | .ok hops =>
        (hops.filter syncOnly).foldlM (fun s hop =>
          (hop.destInfo.flowEntries hop.dest.port .sync).foldlM (fun s nxt =>
            walk g room (hop.dest.inst, nxt) (path ++ [hop.dest.str]) (insert node onPath) s) s) s

/-- The round of the loop of `run` for one handler. -/
def startWalk (g : TopologyGraph) (name : String) (s : Reported)
    (h : PortName × String × SyncKind) : Except UnresolvedFlowError Reported :=
  if h.2.2 ≠ .sync then .ok s
  else walk g depthBound (name, h.2.1) [(PortKey.mk name h.1).str] ∅ s

/-- `SyncCycle.run`. -/
def run (g : TopologyGraph) : Except UnresolvedFlowError (List RawFinding) :=
  ((Check.sortedInstances g).foldlM (fun s e =>
    (Check.handlers e.2).foldlM (startWalk g e.1) s) ⟨[], ∅⟩).map Reported.findings

end SyncCycle

/-- `SyncCycle`: a cycle of sync ports takes no mutex, so it is unbounded
recursion. -/
def syncCycle : Check where
  id := "sync-cycle"
  requiresFlow := true
  body g := OriginM.ofExcept (SyncCycle.run g)
  queries _ := .ofExcept _

namespace SyncCycle

/-! ## Closing paths -/

/-- The sync-only hops of the topology. -/
def problem (g : TopologyGraph) : SimplePaths.Problem Handler OutwardHop UnresolvedFlowError where
  hops h := (g.outwardHops h.1 h.2).map fun hops => hops.filter syncOnly
  next hop := (hop.destInfo.flowEntries hop.dest.port .sync).map fun nxt => (hop.dest.inst, nxt)

/-- The hops a path takes, with the handlers they enter. -/
abbrev Steps := List (OutwardHop × Handler)

/-- The ports the hops land on. -/
def ports (steps : Steps) : List PortKey := steps.map fun step => step.1.dest

/-- The instances the hops land on. -/
def instances (steps : Steps) : Finset String := ((ports steps).map PortKey.inst).toFinset

/-- The ports of a cycle, closed: the last one in front again. -/
def closedPorts (steps : Steps) : List PortKey := (ports steps).getLast?.toList ++ ports steps

/-- A path of the walk: the handler it starts from and where it has got to. -/
structure Path where
  start : PortKey
  entry : String
  point : SimplePaths.Point Handler OutwardHop

namespace Path

/-- The ports of the path. -/
def portList (c : Path) : List PortKey := c.start :: ports c.point.trail

/-- The path as text. -/
def text (c : Path) : List String := c.portList.map PortKey.str

/-- The first name components of the instances on the path. -/
def nameRoots (c : Path) : Finset String :=
  (c.portList.map fun p => firstComponent p.inst).toFinset

end Path

/-- The sync handlers the walk starts from, in order. -/
def starts (g : TopologyGraph) : List (PortKey × String) :=
  (Check.sortedInstances g).flatMap fun e =>
    ((Check.handlers e.2).filter fun h => h.2.2 = .sync).map fun h => (⟨e.1, h.1⟩, h.2.1)

/-- `c` is a sync-only path from a sync handler that comes back to a handler
already on it. -/
def Closes (g : TopologyGraph) (c : Path) : Prop :=
  (c.start, c.entry) ∈ starts g
    ∧ SimplePaths.Trail (problem g) (.root (c.start.inst, c.entry)) c.point ∧ c.point.Closed

/-- The closing path of an event. -/
def closing? (st : PortKey × String) : SimplePaths.Event Handler OutwardHop → Option Path
  | .hop _ _ => none
  | .closed p => some ⟨st.1, st.2, p⟩

/-- The closing paths from one start, in the order of the walk. -/
def closingsFrom (g : TopologyGraph) (st : PortKey × String) :
    Except UnresolvedFlowError (List Path) :=
  (SimplePaths.events (problem g) depthBound (.root (st.1.inst, st.2))).map fun es =>
    es.filterMap (closing? st)

/-- The closing paths of the topology, in the order of the walk. -/
def closings (g : TopologyGraph) : Except UnresolvedFlowError (List Path) :=
  SimplePaths.collect (closingsFrom g) (starts g)

/-- No sync-only path has more ports than the bound. -/
def WithinDepth (g : TopologyGraph) : Prop :=
  ∀ st ∈ starts g, ∀ p, SimplePaths.Trail (problem g) (.root (st.1.inst, st.2)) p →
    ¬ p.Closed → p.trail.length < depthBound

/-! ## The walk is the fold over the closing paths -/

/-- What the walk does at an event. -/
def note (st : PortKey × String) (s : Reported) : SimplePaths.Event Handler OutwardHop → Reported
  | .hop _ _ => s
  | .closed p => report s (Path.text ⟨st.1, st.2, p⟩)

theorem foldl_note (st : PortKey × String) (es : List (SimplePaths.Event Handler OutwardHop)) :
    ∀ s, es.foldl (note st) s = (es.filterMap (closing? st)).foldl (fun s c => report s c.text) s := by
  induction es with
  | nil => exact fun s => rfl
  | cons e es ih =>
    intro s
    cases e with
    | hop p h => exact ih s
    | closed p => exact ih (report s _)

theorem hops_problem {g : TopologyGraph} {node : Handler} {hops : List OutwardHop}
    (h : g.outwardHops node.1 node.2 = .ok hops) :
    (problem g).hops node = .ok (hops.filter syncOnly) := by
  simp [problem, h, Except.map]

/-- One walk folds over the events of its search. -/
theorem walk_eq (g : TopologyGraph) (st : PortKey × String) :
    ∀ (room : Nat) (p : SimplePaths.Point Handler OutwardHop) (s : Reported),
      walk g room p.node (Path.text ⟨st.1, st.2, p⟩) p.passed.toFinset s
        = (SimplePaths.events (problem g) room p).map fun es => es.foldl (note st) s
  | 0, p, s => by
      by_cases hc : p.Closed
      · have hmem : p.node ∈ p.passed := hc
        simp [walk, SimplePaths.events, hc, hmem, Except.map, note]
      · have hmem : p.node ∉ p.passed := hc
        simp [walk, SimplePaths.events, hc, hmem, Except.map]
  | room + 1, p, s => by
      by_cases hc : p.Closed
      · have hmem : p.node ∈ p.passed := hc
        simp [walk, SimplePaths.events, hc, hmem, Except.map, note]
      · have hmem : p.node ∉ p.passed := hc
        cases hout : g.outwardHops p.node.1 p.node.2 with
        | error e =>
          have herr : (problem g).hops p.node = .error e := by simp [problem, hout, Except.map]
          simp [walk, SimplePaths.events, hc, hmem, hout, herr, Except.map]
        | ok hops =>
          rw [SimplePaths.events_open hc (hops_problem hout)]
          simp only [walk, List.mem_toFinset, hmem, if_false, hout]
          refine SimplePaths.foldlM_collect _ (fun hop _ s => ?_) s
          -- behind one hop: a walk from each of its handlers
          have hnext : ∀ body : Reported → Handler → Except UnresolvedFlowError Reported,
              (hop.destInfo.flowEntries hop.dest.port .sync).foldlM
                  (fun s nxt => body s (hop.dest.inst, nxt)) s
                = ((problem g).next hop).foldlM body s :=
            fun body => List.foldlM_map.symm
          rw [hnext fun s m => walk g room m (Path.text ⟨st.1, st.2, p⟩ ++ [hop.dest.str])
            (insert p.node p.passed.toFinset) s]
          show ((problem g).next hop).foldlM _ (note st s (.hop p hop)) = _
          refine SimplePaths.foldlM_enter (P := problem g) (fun m _ s => ?_) s
          rw [← walk_eq g st room (p.enter hop m) s]
          simp [Path.text, Path.portList, ports, SimplePaths.Point.enter]

/-- The two loops of `run` are one over the starts. -/
theorem run_eq_starts (g : TopologyGraph) :
    run g = ((starts g).foldlM (fun s st =>
      walk g depthBound (st.1.inst, st.2) [st.1.str] ∅ s) ⟨[], ∅⟩).map Reported.findings := by
  have hinner : ∀ (e : String × InstanceInfo) (s : Reported),
      (Check.handlers e.2).foldlM (startWalk g e.1) s
        = (((Check.handlers e.2).filter fun h => h.2.2 = .sync).map fun h =>
              ((⟨e.1, h.1⟩, h.2.1) : PortKey × String)).foldlM (fun s st =>
            walk g depthBound (st.1.inst, st.2) [st.1.str] ∅ s) s := by
    intro e s
    rw [List.foldlM_map, List.foldlM_filter]
    refine congrArg (fun body => (Check.handlers e.2).foldlM body s) ?_
    funext s h
    by_cases hk : h.2.2 = .sync
    · simp [startWalk, hk]
    · simp only [startWalk, hk, ne_eq, not_false_eq_true, if_true, decide_false]
      rfl
  rw [run, starts, SimplePaths.foldlM_flatMap]
  simp only [hinner]

/-- `run` reports the closing paths in their order. -/
theorem run_eq (g : TopologyGraph) :
    run g = (closings g).map fun cs =>
      (cs.foldl (fun s c => report s c.text) ⟨[], ∅⟩).findings := by
  have hwalk : ∀ st ∈ starts g, ∀ s,
      walk g depthBound (st.1.inst, st.2) [st.1.str] ∅ s
        = (closingsFrom g st).map fun cs => cs.foldl (fun s c => report s c.text) s := by
    intro st _ s
    have := walk_eq g st depthBound (.root (st.1.inst, st.2)) s
    rw [closingsFrom]
    refine Eq.trans this ?_
    cases SimplePaths.events (problem g) depthBound (.root (st.1.inst, st.2)) with
    | error e => rfl
    | ok es => exact congrArg Except.ok (foldl_note st es s)
  rw [run_eq_starts, SimplePaths.foldlM_collect _ hwalk, ← closings]
  cases closings g with
  | error e => rfl
  | ok cs => rfl

/-! ## What is reported -/

/-- `c` is the first of the paths to have its name roots. -/
def FirstOf (cs : List Path) (c : Path) : Prop :=
  ∃ before after, cs = before ++ c :: after ∧ ∀ c' ∈ before, c'.nameRoots ≠ c.nameRoots

theorem firstComponent_str (p : PortKey) : firstComponent p.str = firstComponent p.inst := by
  have hdot : ∀ l r : List Char,
      (l ++ '.' :: r).takeWhile (· ≠ '.') = l.takeWhile (· ≠ '.') := by
    intro l r
    induction l with
    | nil => rfl
    | cons c l ih =>
      by_cases hc : c = '.'
      · simp [hc]
      · simpa [hc] using ih
  have hchars : p.str.toList = p.inst.toList ++ '.' :: p.port.str.toList := by
    simp [PortKey.str]
  rw [firstComponent, firstComponent, hchars, hdot]

/-- The key of a path is the set of its name roots. -/
theorem cycleKey_text (c : Path) : cycleKey c.text = c.nameRoots := by
  simp [cycleKey, Path.text, Path.nameRoots, firstComponent_str, Function.comp_def]

theorem keys_report (s : Reported) (path : List String) :
    (report s path).keys = insert (cycleKey path) s.keys := by
  unfold report
  split
  · rename_i hmem
    exact (Finset.insert_eq_self.mpr hmem).symm
  · rfl

/-- The findings and keys after reporting a list of paths. -/
def reportAll (cs : List Path) : Reported := cs.foldl (fun s c => report s c.text) ⟨[], ∅⟩

theorem reportAll_append (cs : List Path) (c : Path) :
    reportAll (cs ++ [c]) = report (reportAll cs) c.text := by
  rw [reportAll, List.foldl_append]
  rfl

theorem mem_keys_reportAll (cs : List Path) (key : Finset String) :
    key ∈ (reportAll cs).keys ↔ ∃ c ∈ cs, c.nameRoots = key := by
  induction cs using List.reverseRecOn with
  | nil => simp [reportAll]
  | append_singleton cs c ih =>
    rw [reportAll_append, keys_report, cycleKey_text, Finset.mem_insert, ih]
    simp [or_and_right, exists_or, or_comm, eq_comm]

theorem firstOf_append {cs : List Path} {c c' : Path} :
    FirstOf (cs ++ [c]) c'
      ↔ FirstOf cs c' ∨ (c' = c ∧ ∀ c'' ∈ cs, c''.nameRoots ≠ c.nameRoots) := by
  constructor
  · rintro ⟨before, after, heq, hfirst⟩
    rcases List.eq_nil_or_concat after with rfl | ⟨after, x, rfl⟩
    · obtain ⟨rfl, hc⟩ := List.append_inj' heq rfl
      obtain rfl : c = c' := by simpa using hc
      exact .inr ⟨rfl, hfirst⟩
    · rw [List.concat_eq_append, ← List.cons_append, ← List.append_assoc] at heq
      obtain ⟨rfl, _⟩ := List.append_inj' heq rfl
      exact .inl ⟨before, after, rfl, hfirst⟩
  · rintro (⟨before, after, rfl, hfirst⟩ | ⟨rfl, hfirst⟩)
    · exact ⟨before, after ++ [c], by simp, hfirst⟩
    · exact ⟨cs, [], rfl, hfirst⟩

/-- The findings are those of the first path of each key, one after the
other. -/
theorem findings_eq_firsts (cs : List Path) :
    ∃ ps : List Path, (reportAll cs).findings = ps.map (fun c => finding c.text)
      ∧ (ps.map Path.nameRoots).Nodup ∧ ∀ c, c ∈ ps ↔ FirstOf cs c := by
  induction cs using List.reverseRecOn with
  | nil => exact ⟨[], by simp [reportAll, FirstOf]⟩
  | append_singleton cs c ih =>
    obtain ⟨ps, hfindings, hnodup, hmem⟩ := ih
    rw [reportAll_append, report, cycleKey_text]
    simp only [firstOf_append]
    split
    · rename_i hkey
      obtain ⟨c₀, hc₀, hroots⟩ := (mem_keys_reportAll cs _).mp hkey
      refine ⟨ps, hfindings, hnodup, fun c' => (hmem c').trans (or_iff_left ?_).symm⟩
      exact fun hnew => hnew.2 c₀ hc₀ hroots
    · rename_i hkey
      have hnew : ∀ c'' ∈ cs, c''.nameRoots ≠ c.nameRoots :=
        fun c'' hc'' hroots => hkey ((mem_keys_reportAll cs _).mpr ⟨c'', hc'', hroots⟩)
      have hout : c.nameRoots ∉ ps.map Path.nameRoots := by
        intro hin
        obtain ⟨c', hc', hroots⟩ := List.mem_map.mp hin
        obtain ⟨before, after, heq, _⟩ := (hmem c').mp hc'
        exact hnew c' (by simp [heq]) hroots
      refine ⟨ps ++ [c], by simp [hfindings], ?_, fun c' => ?_⟩
      · rw [List.map_append, List.map_singleton, List.nodup_append_comm]
        exact List.nodup_cons.mpr ⟨hout, hnodup⟩
      · rw [List.mem_append, List.mem_singleton, hmem]
        exact or_congr_right ⟨fun hc => ⟨hc, hnew⟩, And.left⟩

/-- The first of the paths with the name roots of one of them. -/
theorem exists_firstOf {cs : List Path} {c : Path} (h : c ∈ cs) :
    ∃ c', FirstOf cs c' ∧ c'.nameRoots = c.nameRoots := by
  cases hfind : cs.find? fun c' => c'.nameRoots = c.nameRoots with
  | none =>
    have hnone := List.find?_eq_none.mp hfind c h
    simp at hnone
  | some c' =>
    obtain ⟨hroots, before, after, heq, hfirst⟩ := List.find?_eq_some_iff_append.mp hfind
    have hroots : c'.nameRoots = c.nameRoots := by simpa using hroots
    exact ⟨c', ⟨before, after, heq, fun c'' hc'' => by simpa [hroots] using hfirst c'' hc''⟩, hroots⟩

theorem mem_of_firstOf {cs : List Path} {c : Path} (h : FirstOf cs c) : c ∈ cs := by
  obtain ⟨before, after, rfl, _⟩ := h
  simp

theorem run_ok_of_closings {g : TopologyGraph} {cs : List Path} (h : closings g = .ok cs) :
    run g = .ok (reportAll cs).findings := by
  rw [run_eq, h]
  rfl

/-! ## What is listed -/

/-- The walk starts from the handlers behind sync ports. -/
theorem mem_starts_iff {g : TopologyGraph} {port : PortKey} {entry : String} :
    (port, entry) ∈ starts g ↔ ∃ info, g.instances.get? port.inst = some info
      ∧ .sync ∈ info.kindsOf port.port ∧ entry ∈ info.flowEntries port.port .sync := by
  unfold starts
  rw [List.mem_flatMap]
  constructor
  · rintro ⟨e, he, hst⟩
    obtain ⟨⟨port', entry', kind⟩, hmem, heq⟩ := List.mem_map.mp hst
    obtain ⟨hhandler, hkind⟩ := List.mem_filter.mp hmem
    obtain rfl : kind = .sync := by simpa using hkind
    obtain ⟨rfl, rfl⟩ := Prod.mk.inj heq
    exact ⟨e.2, Check.mem_sortedInstances.mp he, Check.mem_handlers.mp hhandler⟩
  · rintro ⟨info, hinfo, hkind, hentry⟩
    refine ⟨(port.inst, info), Check.mem_sortedInstances.mpr hinfo, List.mem_map.mpr
      ⟨(port.port, entry, .sync), List.mem_filter.mpr ⟨?_, by simp⟩, rfl⟩⟩
    exact Check.mem_handlers.mpr ⟨hkind, hentry⟩

theorem mem_handlers_of_starts {g : TopologyGraph} {st : PortKey × String} (h : st ∈ starts g) :
    (st.1.inst, st.2) ∈ g.handlers := by
  obtain ⟨info, hinfo, hkind, hentry⟩ := mem_starts_iff.mp h
  exact TopologyGraph.mem_handlers.mpr ⟨st.1, .sync, info, hinfo, hkind, st.2, hentry, rfl⟩

/-- What a hop of the walk enters, the walk starts from too. -/
theorem start_of_entered {g : TopologyGraph} {n m : Handler} {hops : List OutwardHop}
    {hop : OutwardHop} (hok : (problem g).hops n = .ok hops) (hhop : hop ∈ hops)
    (hm : m ∈ (problem g).next hop) : (hop.dest, m.2) ∈ starts g ∧ m.1 = hop.dest.inst := by
  obtain ⟨outs, houts, rfl⟩ := SimplePaths.map_eq_ok_iff.mp hok
  obtain ⟨hmem, hsync⟩ := List.mem_filter.mp hhop
  obtain ⟨nxt, hnxt, rfl⟩ := List.mem_map.mp hm
  have hout : g.HopOut n hop := ⟨outs, houts, hmem⟩
  have hkind : SyncKind.sync ∈ hop.destInfo.kindsOf hop.dest.port := by
    have hkinds : hop.destInfo.inputPorts.get? hop.dest.port = some {.sync} := by
      simpa [syncOnly] using hsync
    rw [InstanceInfo.kindsOf, hkinds]
    exact Finset.mem_singleton_self _
  exact ⟨mem_starts_iff.mpr ⟨hop.destInfo, hout.dest_spec.1, hkind, hnxt⟩, rfl⟩

/-- A topology with no more handlers than the bound stays within it. -/
theorem withinDepth_of_card {g : TopologyGraph} (h : g.handlers.toFinset.card ≤ depthBound) :
    WithinDepth g := by
  intro st hst p hp hopen
  have hall := hp.forall_passed (S := fun n => n ∈ g.handlers) (mem_handlers_of_starts hst) ?_
  · have hnodup : (p.node :: p.passed).Nodup := List.nodup_cons.mpr ⟨hopen, hp.nodup⟩
    have hsub : (p.node :: p.passed).toFinset ⊆ g.handlers.toFinset := by
      intro n hn
      rw [List.mem_toFinset] at hn ⊢
      exact List.forall_mem_cons.mpr hall n hn
    have := Finset.card_le_card hsub
    rw [List.toFinset_card_of_nodup hnodup, List.length_cons, hp.length_passed] at this
    omega
  · intro n hops hok hop hhop m hm
    obtain ⟨hstart, hinst⟩ := start_of_entered hok hhop hm
    have hmem := mem_handlers_of_starts hstart
    rwa [← hinst] at hmem

/-- The closing paths can be listed when every handler behind a sync port
resolves. -/
theorem closings_ok_iff {g : TopologyGraph} :
    (∃ cs, closings g = .ok cs) ↔ ∀ st ∈ starts g, g.Resolves (st.1.inst, st.2) := by
  have hhops : ∀ n : Handler, (∃ hops, (problem g).hops n = .ok hops) ↔ g.Resolves n := by
    intro n
    show (∃ hops, (g.outwardHops n.1 n.2).map _ = .ok hops) ↔ ∃ hops, g.outwardHops n.1 n.2 = .ok hops
    cases g.outwardHops n.1 n.2 <;> simp [Except.map]
  have hfrom : ∀ st, (∃ cs, closingsFrom g st = .ok cs)
      ↔ ∃ es, SimplePaths.events (problem g) depthBound (.root (st.1.inst, st.2)) = .ok es := by
    intro st
    unfold closingsFrom
    cases SimplePaths.events (problem g) depthBound (.root (st.1.inst, st.2)) <;> simp [Except.map]
  rw [closings, SimplePaths.collect_ok_iff]
  simp only [hfrom, SimplePaths.events_ok_iff, hhops]
  constructor
  · intro hall st hst
    exact hall st hst (.root (st.1.inst, st.2)) .refl (by simp [SimplePaths.Point.Closed, SimplePaths.Point.root])
      (by simp [SimplePaths.Point.root, depthBound])
  · intro hall st hst q hq _ _
    rcases hq.cases_tail with heq | ⟨p, _, _, hops, hok, hop, hhop, m, hm, rfl⟩
    · rw [heq]
      exact hall st hst
    · obtain ⟨hstart, hinst⟩ := start_of_entered hok hhop hm
      have hresolves := hall _ hstart
      rwa [← hinst] at hresolves

/-- Everything listed closes. -/
theorem closes_of_mem {g : TopologyGraph} {cs : List Path} (h : closings g = .ok cs) :
    ∀ c ∈ cs, Closes g c := by
  intro c hc
  obtain ⟨st, hst, ys, hys, hmem⟩ := (SimplePaths.mem_collect_iff h).mp hc
  obtain ⟨es, hes, rfl⟩ := SimplePaths.map_eq_ok_iff.mp hys
  obtain ⟨e, he, hce⟩ := List.mem_filterMap.mp hmem
  rw [SimplePaths.mem_events_iff hes] at he
  cases he with
  | hop => cases hce
  | closed htrail hclosed _ =>
    obtain rfl := Option.some.inj hce
    exact ⟨hst, htrail, hclosed⟩

/-- A closing path of no more hops than the bound is listed. -/
theorem mem_closings_of_length {g : TopologyGraph} {cs : List Path} (h : closings g = .ok cs)
    {c : Path} (hc : Closes g c) (hlen : c.point.trail.length ≤ depthBound) : c ∈ cs := by
  obtain ⟨hst, htrail, hclosed⟩ := hc
  obtain ⟨ys, hys⟩ := (SimplePaths.collect_ok_iff _).mp ⟨cs, h⟩ _ hst
  obtain ⟨es, hes, rfl⟩ := SimplePaths.map_eq_ok_iff.mp hys
  refine (SimplePaths.mem_collect_iff h).mpr ⟨_, hst, _, hys, ?_⟩
  refine List.mem_filterMap.mpr ⟨.closed c.point, ?_, rfl⟩
  refine (SimplePaths.mem_events_iff hes _).mpr (.closed htrail hclosed ?_)
  show c.point.trail.length ≤ 0 + depthBound
  omega

/-- Within the depth bound everything that closes is listed. -/
theorem mem_closings_iff {g : TopologyGraph} (hdepth : WithinDepth g) {cs : List Path}
    (h : closings g = .ok cs) (c : Path) : c ∈ cs ↔ Closes g c := by
  refine ⟨closes_of_mem h c, fun hc => mem_closings_of_length h hc ?_⟩
  rcases hc.2.1.cases_tail with heq | ⟨p, hp, hstep⟩
  · rw [heq]
    exact Nat.zero_le _
  · have := hdepth _ hc.1 p hp hstep.1
    obtain ⟨_, _, _, _, _, _, _, hq⟩ := hstep
    rw [hq, SimplePaths.Point.length_enter]
    omega

/-! ## What the check promises -/

/-- The finding's evidence ends with the ports of a closed cycle over the
given instances. -/
def Covers (g : TopologyGraph) (f : RawFinding) (insts : Finset String) : Prop :=
  ∃ n steps, SimplePaths.Cycle (problem g) n steps ∧ instances steps = insts
    ∧ (closedPorts steps).map PortKey.str <:+ f.evidence

/-- The path ends with the ports of a closed cycle of at most 7 ports over
the given instances. -/
def EndsIn (g : TopologyGraph) (c : Path) (insts : Finset String) : Prop :=
  ∃ n steps, SimplePaths.Cycle (problem g) n steps ∧ instances steps = insts
    ∧ steps.length ≤ 7 ∧ closedPorts steps <:+ c.portList

/-- An elementary cycle of at most 7 ports. -/
def ShortCycle (g : TopologyGraph) (steps : Steps) : Prop :=
  (∃ n, SimplePaths.Cycle (problem g) n steps) ∧ steps.length ≤ 7

/-- What the check promises about a topology. -/
structure Reports (g : TopologyGraph) : Prop where
  /-- Every elementary cycle of at most 7 ports has a finding. -/
  found : ∀ steps, ShortCycle g steps →
    ∃ findings, run g = .ok findings ∧ ∃ f ∈ findings, Covers g f (instances steps)
  /-- Two of them over different instances have two. -/
  separate : ∀ steps steps', ShortCycle g steps → ShortCycle g steps' →
    instances steps ≠ instances steps' →
    ∃ findings, run g = .ok findings ∧ ∃ (i j : Nat) (f f' : RawFinding), i ≠ j
      ∧ findings[i]? = some f ∧ findings[j]? = some f' ∧ Covers g f (instances steps) ∧ Covers g f' (instances steps')
  /-- Every finding is about a path that comes back to a handler on it. -/
  genuine : ∀ findings, run g = .ok findings → ∀ f ∈ findings, ∃ c, Closes g c
    ∧ f = finding c.text ∧ SimplePaths.Cycle (problem g) c.point.node c.point.loop
    ∧ c.point.loop <:+ c.point.trail

theorem suffix_lastOf_iff {l path : List String} {n : Nat} :
    l <:+ lastOf n path ↔ l <:+ path ∧ l.length ≤ n := by
  have hlen : (lastOf n path).length = min n path.length := by
    rw [lastOf, List.length_drop]
    omega
  have hlast : lastOf n path <:+ path := List.drop_suffix _ _
  constructor
  · intro h
    have := h.length_le
    exact ⟨h.trans hlast, by omega⟩
  · rintro ⟨h, hn⟩
    have := h.length_le
    exact List.suffix_of_suffix_length_le h hlast (by omega)

theorem length_closedPorts {steps : Steps} (h : steps ≠ []) :
    (closedPorts steps).length = steps.length + 1 := by
  have hports : ports steps ≠ [] := by simpa [ports] using h
  rw [closedPorts, List.getLast?_eq_some_getLast hports]
  simp [ports]

/-- The last 8 lines show a closed cycle of at most 7 ports. -/
theorem covers_finding_iff {g : TopologyGraph} {c : Path} {insts : Finset String} :
    Covers g (finding c.text) insts ↔ EndsIn g c insts := by
  refine exists_congr fun n => exists_congr fun steps => and_congr_right fun hcycle =>
    and_congr_right fun _ => ?_
  show _ <:+ lastOf 8 c.text ↔ _
  rw [suffix_lastOf_iff, List.length_map, length_closedPorts hcycle.1, and_comm]
  refine and_congr (by omega) ?_
  constructor
  · intro h
    obtain ⟨l, hl, heq⟩ := List.suffix_map_iff.mp h
    rwa [List.map_injective_iff.mpr PortKey.str_injective heq]
  · exact fun h => h.map _

/-! ## Names that tell cycles apart -/

/-- The first name components of the instances of a cycle. -/
def roots (steps : Steps) : Finset String := (instances steps).image firstComponent

/-- Names tell the short cycles apart, from one another and from the paths that
end elsewhere. -/
structure NamedApart (g : TopologyGraph) : Prop where
  /-- Every handler behind a sync port resolves. -/
  resolve : ∀ st ∈ starts g, g.Resolves (st.1.inst, st.2)
  /-- Cycles over different instances have different roots. -/
  cycles : ∀ steps steps', ShortCycle g steps → ShortCycle g steps' →
    roots steps = roots steps' → instances steps = instances steps'
  /-- A closing path with the roots of a cycle ends in one over its instances. -/
  closing : ∀ steps c, ShortCycle g steps → Closes g c → c.nameRoots = roots steps →
    EndsIn g c (instances steps)

/-- Into two cycles over different instances lead paths with different roots. -/
structure PathsApart (g : TopologyGraph) : Prop where
  resolve : (∃ steps, ShortCycle g steps) → ∀ st ∈ starts g, g.Resolves (st.1.inst, st.2)
  cycles : ∀ steps steps', ShortCycle g steps → ShortCycle g steps' →
    instances steps ≠ instances steps' →
    ∃ c c', Closes g c ∧ Closes g c' ∧ EndsIn g c (instances steps) ∧ EndsIn g c' (instances steps')
      ∧ c.nameRoots ≠ c'.nameRoots

/-- A cycle is a closing path of its own, from the port its last hop enters. -/
theorem ShortCycle.closes {g : TopologyGraph} {steps : Steps} (h : ShortCycle g steps) :
    ∃ c, Closes g c ∧ c.point.trail = steps ∧ c.portList = closedPorts steps
      ∧ c.nameRoots = roots steps := by
  obtain ⟨⟨n, hne, passed, htrail⟩, _⟩ := h
  have hclosed : n ∈ passed := by
    have hlen := htrail.length_passed
    rcases htrail.cases_head with heq | ⟨p, hstep, hrest⟩
    · exact absurd (congrArg SimplePaths.Point.trail heq).symm hne
    · obtain ⟨_, _, _, _, _, m, _, rfl⟩ := hstep
      obtain ⟨_, _, _, hpassed, _⟩ := SimplePaths.Trail.detach hrest
      simp only [SimplePaths.Point.enter, SimplePaths.Point.root] at hpassed
      simp [hpassed]
  rcases htrail.cases_tail with heq | ⟨p, hp, hopen, hops, hok, hop, hhop, m, hm, hlast⟩
  · exact absurd (congrArg SimplePaths.Point.trail heq) hne
  · have hnode : n = m := congrArg SimplePaths.Point.node hlast
    have hsteps : steps = p.trail ++ [(hop, m)] := congrArg SimplePaths.Point.trail hlast
    obtain ⟨hstart, hinst⟩ := start_of_entered hok hhop hm
    have hn : n = (hop.dest.inst, m.2) := by rw [hnode, ← hinst]
    have hports : closedPorts steps = hop.dest :: ports steps := by simp [closedPorts, ports, hsteps]
    refine ⟨⟨hop.dest, m.2, ⟨steps, passed, n⟩⟩, ⟨hstart, ?_, hclosed⟩, rfl, hports.symm, ?_⟩
    · show SimplePaths.Trail (problem g) (.root (hop.dest.inst, m.2)) _
      rw [← hn]
      exact htrail
    · -- the start is the port that the cycle ends at
      ext root
      simp [Path.nameRoots, Path.portList, roots, instances, ports, hsteps]

/-- The findings of the first paths of two keys stand at two places. -/
theorem findings_apart {cs : List Path} {c c' : Path} (hc : FirstOf cs c) (hc' : FirstOf cs c')
    (hne : c.nameRoots ≠ c'.nameRoots) :
    ∃ i j : Nat, i ≠ j ∧ (reportAll cs).findings[i]? = some (finding c.text)
      ∧ (reportAll cs).findings[j]? = some (finding c'.text) := by
  obtain ⟨ps, hfindings, _, hmem⟩ := findings_eq_firsts cs
  obtain ⟨i, hi⟩ := List.mem_iff_getElem?.mp ((hmem c).mpr hc)
  obtain ⟨j, hj⟩ := List.mem_iff_getElem?.mp ((hmem c').mpr hc')
  refine ⟨i, j, ?_, by simp [hfindings, hi], by simp [hfindings, hj]⟩
  rintro rfl
  obtain rfl := Option.some.inj (hi.symm.trans hj)
  exact hne rfl

/-- What stands at two places comes from paths of two keys. -/
theorem firsts_apart {cs : List Path} {i j : Nat} {f f' : RawFinding} (hij : i ≠ j)
    (hf : (reportAll cs).findings[i]? = some f) (hf' : (reportAll cs).findings[j]? = some f') :
    ∃ c c', c ∈ cs ∧ c' ∈ cs ∧ f = finding c.text ∧ f' = finding c'.text
      ∧ c.nameRoots ≠ c'.nameRoots := by
  obtain ⟨ps, hfindings, hnodup, hmem⟩ := findings_eq_firsts cs
  rw [hfindings, List.getElem?_map] at hf hf'
  obtain ⟨c, hc, rfl⟩ := Option.map_eq_some_iff.mp hf
  obtain ⟨c', hc', rfl⟩ := Option.map_eq_some_iff.mp hf'
  refine ⟨c, c', mem_of_firstOf ((hmem c).mp (List.mem_of_getElem? hc)),
    mem_of_firstOf ((hmem c').mp (List.mem_of_getElem? hc')), rfl, rfl, fun hroots => hij ?_⟩
  have hi : (ps.map Path.nameRoots)[i]? = some c.nameRoots := by simp [hc]
  have hj : (ps.map Path.nameRoots)[j]? = some c.nameRoots := by simp [hc', hroots]
  obtain ⟨hlt, _⟩ := List.getElem?_eq_some_iff.mp hi
  exact (List.getElem?_inj hlt hnodup).mp (hi.trans hj.symm)

/-- The first path with the roots of a cycle ends in one over its instances. -/
theorem NamedApart.first {g : TopologyGraph} (h : NamedApart g) {cs : List Path}
    (hcs : closings g = .ok cs) {steps : Steps} (hcycle : ShortCycle g steps) :
    ∃ c, FirstOf cs c ∧ c.nameRoots = roots steps ∧ Covers g (finding c.text) (instances steps) := by
  obtain ⟨own, hcloses, htrail, _, hroots⟩ := hcycle.closes
  have hlisted : own ∈ cs := mem_closings_of_length hcs hcloses <| by
    rw [htrail]
    exact hcycle.2.trans (by decide)
  obtain ⟨c, hfirst, hsame⟩ := exists_firstOf hlisted
  have hc : c.nameRoots = roots steps := hsame.trans hroots
  exact ⟨c, hfirst, hc, covers_finding_iff.mpr
    (h.closing steps c hcycle (closes_of_mem hcs c (mem_of_firstOf hfirst)) hc)⟩

/-- Whatever is reported is about a closing path. -/
theorem genuine_findings {g : TopologyGraph} {findings : List RawFinding}
    (hrun : run g = .ok findings) : ∀ f ∈ findings, ∃ c, Closes g c ∧ f = finding c.text
      ∧ SimplePaths.Cycle (problem g) c.point.node c.point.loop ∧ c.point.loop <:+ c.point.trail := by
  intro f hf
  rw [run_eq] at hrun
  obtain ⟨cs, hcs, rfl⟩ := SimplePaths.map_eq_ok_iff.mp hrun
  obtain ⟨ps, hfindings, _, hmem⟩ := findings_eq_firsts cs
  rw [show (cs.foldl (fun s c => report s c.text) ⟨[], ∅⟩).findings = (reportAll cs).findings from rfl,
    hfindings] at hf
  obtain ⟨c, hc, rfl⟩ := List.mem_map.mp hf
  have hcloses := closes_of_mem hcs c (mem_of_firstOf ((hmem c).mp hc))
  exact ⟨c, hcloses, rfl, hcloses.2.1.loop_spec hcloses.2.2⟩

/-- **The check keeps its promise** where names tell the short cycles apart, from
one another and from the paths that end elsewhere; and it does so only where
paths with different roots lead into two cycles over different instances. -/
theorem reports_of_apart (g : TopologyGraph) :
    (NamedApart g → Reports g) ∧ (Reports g → PathsApart g) := by
  constructor
  · intro h
    obtain ⟨cs, hcs⟩ := closings_ok_iff.mpr h.resolve
    have hrun := run_ok_of_closings hcs
    obtain ⟨ps, hfindings, _, hmem⟩ := findings_eq_firsts cs
    refine ⟨fun steps hcycle => ?_, fun steps steps' hcycle hcycle' hne => ?_, fun findings =>
      genuine_findings⟩
    · obtain ⟨c, hfirst, _, hcovers⟩ := h.first hcs hcycle
      refine ⟨_, hrun, finding c.text, ?_, hcovers⟩
      rw [hfindings]
      exact List.mem_map_of_mem ((hmem c).mpr hfirst)
    · obtain ⟨c, hfirst, hroots, hcovers⟩ := h.first hcs hcycle
      obtain ⟨c', hfirst', hroots', hcovers'⟩ := h.first hcs hcycle'
      have hapart : c.nameRoots ≠ c'.nameRoots := fun hsame =>
        hne (h.cycles steps steps' hcycle hcycle' (hroots.symm.trans (hsame.trans hroots')))
      obtain ⟨i, j, hij, hi, hj⟩ := findings_apart hfirst hfirst' hapart
      exact ⟨_, hrun, i, j, _, _, hij, hi, hj, hcovers, hcovers'⟩
  · intro h
    have hlist : ∀ {findings}, run g = .ok findings →
        ∃ cs, closings g = .ok cs ∧ findings = (reportAll cs).findings := by
      intro findings hrun
      rw [run_eq] at hrun
      obtain ⟨cs, hcs, rfl⟩ := SimplePaths.map_eq_ok_iff.mp hrun
      exact ⟨cs, hcs, rfl⟩
    constructor
    · rintro ⟨steps, hcycle⟩
      obtain ⟨findings, hrun, _⟩ := h.found steps hcycle
      obtain ⟨cs, hcs, _⟩ := hlist hrun
      exact closings_ok_iff.mp ⟨cs, hcs⟩
    · intro steps steps' hcycle hcycle' hne
      obtain ⟨findings, hrun, i, j, f, f', hij, hi, hj, hcovers, hcovers'⟩ :=
        h.separate steps steps' hcycle hcycle' hne
      obtain ⟨cs, hcs, rfl⟩ := hlist hrun
      obtain ⟨c, c', hc, hc', rfl, rfl, hroots⟩ := firsts_apart hij hi hj
      exact ⟨c, c', closes_of_mem hcs c hc, closes_of_mem hcs c' hc', covers_finding_iff.mp hcovers,
        covers_finding_iff.mp hcovers', hroots⟩

/-- Whether names tell the cycles apart can be read off the list of closing
paths. -/
theorem namedApart_of_listed {g : TopologyGraph} (hdepth : WithinDepth g) {cs : List Path}
    (hcs : closings g = .ok cs)
    (htell : ∀ c ∈ cs, c.point.loop.length ≤ 7 ∧ closedPorts c.point.loop <:+ c.portList
      ∧ ∀ own ∈ cs, own.portList = closedPorts own.point.trail → own.nameRoots = c.nameRoots →
        instances c.point.loop = instances own.point.trail) : NamedApart g := by
  have hown : ∀ steps, ShortCycle g steps → ∃ own ∈ cs, own.portList = closedPorts own.point.trail
      ∧ own.point.trail = steps ∧ own.nameRoots = roots steps := by
    intro steps hcycle
    obtain ⟨own, hcloses, htrail, hports, hroots⟩ := hcycle.closes
    exact ⟨own, (mem_closings_iff hdepth hcs own).mpr hcloses, htrail ▸ hports, htrail, hroots⟩
  refine ⟨closings_ok_iff.mp ⟨cs, hcs⟩, fun steps steps' hcycle hcycle' hroots => ?_,
    fun steps c hcycle hc hroots => ?_⟩
  · obtain ⟨own, hmem, hports, rfl, hkey⟩ := hown steps hcycle
    obtain ⟨own', hmem', hports', rfl, hkey'⟩ := hown steps' hcycle'
    have hsame : own'.nameRoots = own.nameRoots := hkey'.trans (hroots.symm.trans hkey.symm)
    exact ((htell own hmem).2.2 own hmem hports rfl).symm.trans
      ((htell own hmem).2.2 own' hmem' hports' hsame)
  · obtain ⟨own, hmem, hports, rfl, hkey⟩ := hown steps hcycle
    obtain ⟨hlen, hsuffix, hinsts⟩ := htell c ((mem_closings_iff hdepth hcs c).mpr hc)
    exact ⟨_, _, (hc.2.1.loop_spec hc.2.2).1, hinsts own hmem hports (hkey.trans hroots.symm), hlen,
      hsuffix⟩

/-! Two loops in one topology `M`: `M.a` and `M.b` call each other, and so do
`M.c` and `M.d`. -/

def twoLoops : TopologyGraph where
  instances := .ofList [("M.a", TopologyGraph.loopInstance), ("M.b", TopologyGraph.loopInstance),
    ("M.c", TopologyGraph.loopInstance), ("M.d", TopologyGraph.loopInstance)]
  connections := .ofList [(⟨"M.a", .out⟩, [⟨"M.b", .go⟩]), (⟨"M.b", .out⟩, [⟨"M.a", .go⟩]),
    (⟨"M.c", .out⟩, [⟨"M.d", .go⟩]), (⟨"M.d", .out⟩, [⟨"M.c", .go⟩])]
  flow := TopologyGraph.loopFlow

/-- The hop of `twoLoops` from one instance to another. -/
def loopHop (source dest : String) : OutwardHop :=
  ⟨⟨source, .out⟩, ⟨dest, .go⟩, TopologyGraph.loopInstance, .sync⟩

/-- The second loop. -/
def secondLoop : Steps :=
  [(loopHop "M.c" "M.d", ("M.d", "go")), (loopHop "M.d" "M.c", ("M.c", "go"))]

theorem secondLoop_cycle : SimplePaths.Cycle (problem twoLoops) ("M.c", "go") secondLoop := by
  refine ⟨List.cons_ne_nil _ _, [("M.d", "go"), ("M.c", "go")], ?_⟩
  have hfirst : SimplePaths.Step (problem twoLoops) (.root ("M.c", "go"))
      ⟨[(loopHop "M.c" "M.d", ("M.d", "go"))], [("M.c", "go")], ("M.d", "go")⟩ :=
    ⟨by decide, [loopHop "M.c" "M.d"], by decide, loopHop "M.c" "M.d", by decide, ("M.d", "go"),
      by decide, rfl⟩
  have hsecond : SimplePaths.Step (problem twoLoops)
      ⟨[(loopHop "M.c" "M.d", ("M.d", "go"))], [("M.c", "go")], ("M.d", "go")⟩
      ⟨secondLoop, [("M.d", "go"), ("M.c", "go")], ("M.c", "go")⟩ :=
    ⟨by decide, [loopHop "M.d" "M.c"], by decide, loopHop "M.d" "M.c", by decide, ("M.c", "go"),
      by decide, rfl⟩
  exact (Relation.ReflTransGen.single hfirst).tail hsecond

/-- All names are qualified, every path stays within the bound, and the loop
of `M.c` and `M.d` has no finding: it goes by the same root as the first. -/
theorem second_loop_lost :
    (∀ e ∈ twoLoops.instances.entries, '.' ∈ e.1.toList) ∧ WithinDepth twoLoops
      ∧ SimplePaths.Cycle (problem twoLoops) ("M.c", "go") secondLoop ∧ secondLoop.length ≤ 7
      ∧ ∃ findings, run twoLoops = .ok findings
        ∧ ∀ f ∈ findings, ¬ Covers twoLoops f (instances secondLoop) := by
  have hevidence : (run twoLoops).map (fun findings => findings.map RawFinding.evidence)
      = .ok [["M.a.go", "M.b.go", "M.a.go"]] := by
    decide +kernel
  obtain ⟨findings, hrun, hlines⟩ := SimplePaths.map_eq_ok_iff.mp hevidence
  refine ⟨by decide, withinDepth_of_card (by decide), secondLoop_cycle, by decide, findings, hrun, ?_⟩
  rintro f hf ⟨n, steps, hcycle, hinsts, hsuffix⟩
  have hline : f.evidence = ["M.a.go", "M.b.go", "M.a.go"] :=
    List.mem_singleton.mp (hlines ▸ List.mem_map_of_mem hf)
  -- a port of the cycle is a line of the evidence, so it is not in the second loop
  obtain ⟨step, hstep⟩ := List.exists_mem_of_ne_nil steps hcycle.1
  have hport : step.1.dest ∈ ports steps := List.mem_map_of_mem hstep
  have hmem : step.1.dest.str ∈ ["M.a.go", "M.b.go", "M.a.go"] := by
    rw [← hline]
    exact hsuffix.subset (List.mem_map_of_mem (List.mem_append_right _ hport))
  have hinst : step.1.dest.inst ∈ instances secondLoop := by
    rw [← hinsts]
    exact List.mem_toFinset.mpr (List.mem_map_of_mem hport)
  have hfirst : step.1.dest = ⟨"M.a", .go⟩ ∨ step.1.dest = ⟨"M.b", .go⟩ := by
    rcases List.mem_cons.mp hmem with h | h
    · exact .inl (PortKey.str_injective h)
    rcases List.mem_cons.mp h with h | h
    · exact .inr (PortKey.str_injective h)
    · exact .inl (PortKey.str_injective (List.mem_singleton.mp h))
  rcases hfirst with h | h
  · rw [h] at hinst
    exact absurd hinst (by decide)
  · rw [h] at hinst
    exact absurd hinst (by decide)

/-- Two loops whose instances have roots of their own, and a way into one of
them. -/
def apartLoops : TopologyGraph where
  instances := .ofList [("L.e", TopologyGraph.loopInstance), ("M.a", TopologyGraph.loopInstance),
    ("N.b", TopologyGraph.loopInstance), ("P.c", TopologyGraph.loopInstance),
    ("Q.d", TopologyGraph.loopInstance)]
  connections := .ofList [(⟨"L.e", .out⟩, [⟨"M.a", .go⟩]), (⟨"M.a", .out⟩, [⟨"N.b", .go⟩]),
    (⟨"N.b", .out⟩, [⟨"M.a", .go⟩]), (⟨"P.c", .out⟩, [⟨"Q.d", .go⟩]),
    (⟨"Q.d", .out⟩, [⟨"P.c", .go⟩])]
  flow := TopologyGraph.loopFlow

theorem apartLoops_namedApart : NamedApart apartLoops := by
  have hok : (closings apartLoops).map (fun cs => decide (∀ c ∈ cs, c.point.loop.length ≤ 7
      ∧ closedPorts c.point.loop <:+ c.portList
      ∧ ∀ own ∈ cs, own.portList = closedPorts own.point.trail → own.nameRoots = c.nameRoots →
        instances c.point.loop = instances own.point.trail)) = .ok true := by
    decide +kernel
  obtain ⟨cs, hcs, htell⟩ := SimplePaths.map_eq_ok_iff.mp hok
  exact namedApart_of_listed (withinDepth_of_card (by decide)) hcs (by simpa using htell)

/-- Both loops are reported, and apart. -/
theorem reports_of_apart_loops : Reports apartLoops ∧ PathsApart apartLoops :=
  ⟨(reports_of_apart apartLoops).1 apartLoops_namedApart,
    (reports_of_apart apartLoops).2 ((reports_of_apart apartLoops).1 apartLoops_namedApart)⟩

end SyncCycle

end FprimeTopologyAnalysis
