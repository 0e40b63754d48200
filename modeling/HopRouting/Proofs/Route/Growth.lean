import HopRouting.Proofs.Route.Correctness

/-!
# Looser flows and larger graphs

A flow is relaxed when a format that it names is replaced by `*`.  A graph is extended when nodes
and edges are added to it, or when an edge is given more executors, or an executor more
capabilities, behind those that it has.

**Hops.**  A usable hop stays usable, perhaps with another executor, and the data leaves it in the
same format as before or in `*` (`RouteQuery.EasesTo.exists_usable`).  The format after a hop can
only become looser, so the nodes of a whole route can be visited again
(`RouteQuery.EasesTo.exists_isRoute`), although the first route may be another one.

**Results.**
* `Graph.extendsTo_replay`: updates that add elements, or that put grown edges in place of edges,
  extend the graph.
* `findPlan_of_growth`: no plan is lost by relaxing the flow and extending the graph.
-/

namespace HopRouting

namespace Dataset

/-- The format is left as it is, or replaced by any. -/
def Loosens (format loose : String) : Prop :=
  loose = format ∨ loose = Key.any

theorem agree_of_loosens
    {own format loose : String}
    (hloosens : Loosens format loose)
    (hagree : agree own format = true) :
    agree own loose = true := by
  rcases hloosens with rfl | rfl
  · exact hagree
  · simp [agree]

end Dataset

namespace Template

theorem supportsHop_of_loosens
    {template : Template} {source destination format loose wanted looser : String}
    (hformat : Dataset.Loosens format loose)
    (hwanted : Dataset.Loosens wanted looser)
    (hsupported : template.supportsHop ⟨source, format⟩ ⟨destination, wanted⟩ = true) :
    template.supportsHop ⟨source, loose⟩ ⟨destination, looser⟩ = true := by
  simp only [supportsHop, Dataset.isCompatible, Bool.and_eq_true] at hsupported ⊢
  obtain ⟨⟨hsource, hread⟩, hdestination, hwritten⟩ := hsupported
  exact ⟨⟨hsource, Dataset.agree_of_loosens hformat hread⟩,
    hdestination, Dataset.agree_of_loosens hwanted hwritten⟩

theorem outputFormat_loosens
    (template : Template)
    {format loose : String}
    (hformat : Dataset.Loosens format loose) :
    Dataset.Loosens (template.outputFormat format) (template.outputFormat loose) := by
  unfold outputFormat
  split
  · exact hformat
  · exact Or.inl rfl

end Template

/-- The flow is asked for between the same nodes, and no more is asked of either format. -/
structure Flow.RelaxesTo (flow relaxed : Flow) : Prop where
  source : relaxed.source = flow.source
  destination : relaxed.destination = flow.destination
  input : Dataset.Loosens flow.inputFormat relaxed.inputFormat
  output : Dataset.Loosens flow.outputFormat relaxed.outputFormat

theorem Flow.RelaxesTo.refl
    (flow : Flow) :
    flow.RelaxesTo flow :=
  ⟨rfl, rfl, Or.inl rfl, Or.inl rfl⟩

/-- Capabilities were appended to those of the executor. -/
structure Executor.GrowsTo (executor grown : Executor) : Prop where
  className : grown.className = executor.className
  capabilities : executor.capabilities <+: grown.capabilities

/-- The edge moves data as before, and executors were appended to those that it has, which keep
their places. -/
structure Edge.GrowsTo (edge grown : Edge) : Prop where
  id : grown.id = edge.id
  source : grown.source = edge.source
  destination : grown.destination = edge.destination
  templateUri : grown.templateUri = edge.templateUri
  active : grown.active = edge.active
  executors :
    ∀ (position : Nat) (executor : Executor), edge.executors[position]? = some executor →
      ∃ more, grown.executors[position]? = some more ∧ executor.GrowsTo more

namespace Edge.GrowsTo

theorem refl
    (edge : Edge) :
    edge.GrowsTo edge :=
  ⟨rfl, rfl, rfl, rfl, rfl, fun _ executor hexecutor =>
    ⟨executor, hexecutor, rfl, List.prefix_refl _⟩⟩

theorem trans
    {edge grown later : Edge}
    (hgrows : edge.GrowsTo grown)
    (hlater : grown.GrowsTo later) :
    edge.GrowsTo later where
  id := hlater.id.trans hgrows.id
  source := hlater.source.trans hgrows.source
  destination := hlater.destination.trans hgrows.destination
  templateUri := hlater.templateUri.trans hgrows.templateUri
  active := hlater.active.trans hgrows.active
  executors := by
    intro position executor hexecutor
    obtain ⟨next, hnext, hclass, hcapabilities⟩ := hgrows.executors position executor hexecutor
    obtain ⟨last, hlast, hclass', hcapabilities'⟩ := hlater.executors position next hnext
    exact ⟨last, hlast, hclass'.trans hclass, hcapabilities.trans hcapabilities'⟩

/-- Some executor of the grown edge is the first for what an executor of the edge was the first
for; it need not be the same, as an earlier one may have come to cover it. -/
theorem exists_isFirstFor
    {edge grown : Edge}
    (hgrows : edge.GrowsTo grown)
    {required : Capability} {executor : Executor}
    (hfirst : executor.IsFirstFor required edge.executors) :
    ∃ chosen : Executor, chosen.IsFirstFor required grown.executors := by
  obtain ⟨earlier, later, hsplit, ⟨capability, hcapability, hcovers⟩, -⟩ := hfirst
  have hmem : executor ∈ edge.executors := by
    rw [hsplit]
    exact List.mem_append_right _ List.mem_cons_self
  obtain ⟨position, hposition⟩ := List.mem_iff_getElem?.mp hmem
  obtain ⟨more, hmore, hgrown⟩ := hgrows.executors position executor hposition
  have hsupports : more.supports required = true :=
    List.any_eq_true.mpr ⟨capability, hgrown.capabilities.subset hcapability, hcovers⟩
  have hfound : (grown.firstCapable? required).isSome :=
    List.find?_isSome.mpr ⟨more, List.mem_iff_getElem?.mpr ⟨position, hmore⟩, hsupports⟩
  obtain ⟨chosen, hchosen⟩ := Option.isSome_iff_exists.mp hfound
  exact ⟨chosen, (Edge.firstCapable?_eq_some_iff _ _ _).mp hchosen⟩

end Edge.GrowsTo

namespace Graph

section ExtendedGraphs

/-- The nodes of the graph are all there, and its edges too, perhaps grown. -/
structure ExtendsTo (graph other : Graph) : Prop where
  nodes :
    ∀ (id : String) (node : Node), graph.nodes[id]? = some node → other.nodes[id]? = some node
  edges :
    ∀ (id : String) (edge : Edge), graph.edges[id]? = some edge →
      ∃ grown, other.edges[id]? = some grown ∧ edge.GrowsTo grown

theorem ExtendsTo.refl
    (graph : Graph) :
    graph.ExtendsTo graph :=
  ⟨fun _ _ hnode => hnode, fun _ edge hedge => ⟨edge, hedge, .refl edge⟩⟩

theorem ExtendsTo.trans
    {graph other last : Graph}
    (hextends : graph.ExtendsTo other)
    (hlast : other.ExtendsTo last) :
    graph.ExtendsTo last := by
  constructor
  · intro id node hnode
    exact hlast.nodes id node (hextends.nodes id node hnode)
  · intro id edge hedge
    obtain ⟨grown, hgrown, hgrows⟩ := hextends.edges id edge hedge
    obtain ⟨later, hlater, hgrows'⟩ := hlast.edges id grown hgrown
    exact ⟨later, hlater, hgrows.trans hgrows'⟩

/-- The update adds an element, or puts a grown edge in place of an edge. -/
def Update.Grows (graph : Graph) : Update → Prop
  | .node (.add _) => True
  | .edge (.add _) => True
  | .edge (.upsert new) => ∀ old, graph.edges[new.id]? = some old → old.GrowsTo new
  | _ => False

/-- Every update grows the graph that those before it have led to. -/
def Growing (graph : Graph) : List Update → Prop
  | [] => True
  | change :: rest => change.Grows graph ∧ (graph.update change).2.Growing rest

theorem extendsTo_update
    {graph : Graph} {change : Update}
    (hgrows : change.Grows graph) :
    graph.ExtendsTo (graph.update change).2 := by
  cases change with
  | node write =>
      obtain ⟨-, hnodes, hedges⟩ := graph.update_node write
      cases write with
      | add new =>
          constructor
          · intro id node hnode
            rw [hnodes]
            exact Write.getElem?_apply_add Node.id hnode new
          · rw [hedges]
            exact (ExtendsTo.refl graph).edges
      | upsert new => exact hgrows.elim
      | remove id => exact hgrows.elim
  | edge write =>
      obtain ⟨-, hnodes, hedges⟩ := graph.update_edge write
      constructor
      · rw [hnodes]
        exact (ExtendsTo.refl graph).nodes
      · intro id edge hedge
        rw [hedges]
        cases write with
        | add new =>
            exact ⟨edge, Write.getElem?_apply_add Edge.id hedge new, .refl edge⟩
        | upsert new =>
            by_cases hsame : new.id = id
            · subst hsame
              exact ⟨new, by simp [Write.apply], hgrows edge hedge⟩
            · refine ⟨edge, ?_, .refl edge⟩
              simp [Write.apply, Std.ExtTreeMap.getElem?_insert, hsame, hedge]
        | remove gone => exact hgrows.elim

theorem extendsTo_replay
    {graph : Graph} {history : List Update}
    (hgrowing : graph.Growing history) :
    graph.ExtendsTo (graph.replay history) := by
  induction history generalizing graph with
  | nil =>
      exact .refl graph
  | cons change rest ih =>
      exact (extendsTo_update hgrowing.1).trans (ih hgrowing.2)

end ExtendedGraphs

end Graph

namespace RouteQuery

/-- Less is asked for by the flow, and more is there to serve it. -/
structure EasesTo (query eased : RouteQuery) : Prop where
  catalog : eased.catalog = query.catalog
  flow : query.flow.RelaxesTo eased.flow
  nodes :
    ∀ (id : String) (node : Node), query.snapshot.nodes[id]? = some node →
      eased.snapshot.nodes[id]? = some node
  edges :
    ∀ edge : Edge, query.snapshot.HasEdge edge →
      ∃ grown, eased.snapshot.HasEdge grown ∧ edge.GrowsTo grown

/-- A catalog that answers or does not find fails no lookup. -/
theorem not_lookupFails
    {query : RouteQuery}
    (hcatalog :
      ∀ uri, (∃ template, query.catalog uri = .ok template) ∨
        ∃ missing, query.catalog uri = .error (.notFound missing))
    (error : RouteError) :
    ¬ query.LookupFails error := by
  rintro ⟨uri, cause, hcause, hother, -⟩
  rcases hcatalog uri with ⟨template, hfound⟩ | ⟨missing, hmissing⟩
  · cases hcause.symm.trans hfound
  · cases hcause.symm.trans hmissing
    exact hother missing rfl

section Eased

variable {query eased : RouteQuery} (heases : query.EasesTo eased)

include heases

theorem EasesTo.formatAskedAt
    (id : String) :
    Dataset.Loosens (query.formatAskedAt id) (eased.formatAskedAt id) := by
  unfold RouteQuery.formatAskedAt
  rw [heases.flow.destination]
  split
  · exact heases.flow.output
  · exact Or.inl rfl

/-- A hop over an edge can be taken over the grown edge. -/
theorem EasesTo.exists_usable
    {format loose : String} {hop : Hop} {grown : Edge}
    (hformat : Dataset.Loosens format loose)
    (hgrows : hop.edge.GrowsTo grown)
    (husable : query.Usable format hop) :
    ∃ other : Hop, other.edge = grown ∧ eased.Usable loose other ∧
      Dataset.Loosens hop.outputFormat other.outputFormat := by
  obtain ⟨source, destination, hfits⟩ := husable
  obtain ⟨executor, hfirst⟩ := hgrows.exists_isFirstFor hfits.executor_first
  refine ⟨⟨grown, hop.template, executor, hop.template.outputFormat loose⟩, rfl,
    ⟨source, destination, ?_⟩, ?_⟩
  · constructor
    case edge_active => exact hgrows.active.trans hfits.edge_active
    case source_present =>
      rw [hgrows.source]
      exact heases.nodes _ _ hfits.source_present
    case destination_present =>
      rw [hgrows.destination]
      exact heases.nodes _ _ hfits.destination_present
    case source_active => exact hfits.source_active
    case destination_active => exact hfits.destination_active
    case template_found =>
      rw [heases.catalog, hgrows.templateUri]
      exact hfits.template_found
    case supported =>
      rw [hgrows.destination]
      exact Template.supportsHop_of_loosens hformat (heases.formatAskedAt _) hfits.supported
    case executor_first => exact hfirst
    case format_after => rfl
  · rw [hfits.format_after]
    exact hop.template.outputFormat_loosens hformat

theorem EasesTo.exists_leads
    {id format loose finish : String} {hops : List Hop}
    (hformat : Dataset.Loosens format loose)
    (hleads : query.Leads id format hops finish) :
    ∃ others, eased.Leads id loose others finish ∧ entered others = entered hops := by
  -- the format that data is in may become looser at every hop, so it is generalized
  induction hleads generalizing loose with
  | here =>
      exact ⟨[], .here, rfl⟩
  | @step id format finish hop rest hedge hsource husable _ ih =>
      obtain ⟨grown, hgrown, hgrows⟩ := heases.edges hop.edge hedge
      obtain ⟨other, rfl, husable', hloosens⟩ := heases.exists_usable hformat hgrows husable
      obtain ⟨others, hleads, hentered⟩ := ih hloosens
      rw [← hgrows.destination] at hleads
      refine ⟨other :: others, .step hgrown (hgrows.source.trans hsource) husable' hleads, ?_⟩
      rw [entered_cons, entered_cons, hgrows.destination, hentered]

/-- The nodes of a route can be visited again. -/
theorem EasesTo.exists_isRoute
    {route : List Hop}
    (hroute : query.IsRoute route) :
    ∃ other, eased.IsRoute other := by
  obtain ⟨other, hleads, hentered⟩ := heases.exists_leads heases.flow.input hroute.leads
  refine ⟨other, ?_, ?_⟩
  · rw [heases.flow.source, heases.flow.destination]
    exact hleads
  · rw [heases.flow.source, hentered]
    exact hroute.simple

theorem EasesTo.mem_nodes
    {id : String}
    (hnode : id ∈ query.snapshot.nodes) :
    id ∈ eased.snapshot.nodes := by
  rw [Std.ExtTreeMap.mem_iff_isSome_getElem?, Option.isSome_iff_exists] at hnode ⊢
  obtain ⟨node, hheld⟩ := hnode
  exact ⟨node, heases.nodes id node hheld⟩

theorem EasesTo.exists_findPlan
    (hwf : query.snapshot.WellFormed)
    (hwf' : eased.snapshot.WellFormed)
    (hcatalog :
      ∀ uri, (∃ template, query.catalog uri = .ok template) ∨
        ∃ missing, query.catalog uri = .error (.notFound missing))
    (hplan : ∃ plan, query.findPlan = .ok plan) :
    ∃ plan, eased.findPlan = .ok plan := by
  have hlookups' : ∀ error, ¬ eased.LookupFails error := by
    apply not_lookupFails
    rw [heases.catalog]
    exact hcatalog
  obtain ⟨-, hfound, -⟩ := query.findRoute_eq_iff hwf (not_lookupFails hcatalog)
  obtain ⟨-, hfound', -⟩ := eased.findRoute_eq_iff hwf' hlookups'
  rw [exists_findPlan_iff, hfound] at hplan
  obtain ⟨hknown, hne, route, hroute⟩ := hplan
  rw [exists_findPlan_iff, hfound', unknownEndpoint?_eq_none_iff, heases.flow.source,
    heases.flow.destination]
  rw [unknownEndpoint?_eq_none_iff] at hknown
  exact ⟨⟨heases.mem_nodes hknown.1, heases.mem_nodes hknown.2⟩, hne,
    heases.exists_isRoute hroute⟩

end Eased

end RouteQuery

theorem Graph.ExtendsTo.easesTo
    {graph other : Graph}
    (hextends : graph.ExtendsTo other)
    (hkeyed : graph.Keyed)
    (hkeyed' : other.Keyed)
    (catalog : Catalog)
    {flow relaxed : Flow}
    (hrelaxes : flow.RelaxesTo relaxed) :
    (graph.query catalog flow).EasesTo (other.query catalog relaxed) := by
  refine ⟨rfl, hrelaxes, hextends.nodes, ?_⟩
  intro edge hedge
  have hheld := hkeyed.hasEdge_snapshot_iff.mp hedge
  obtain ⟨grown, hgrown, hgrows⟩ := hextends.edges edge.id edge hheld
  refine ⟨grown, hkeyed'.hasEdge_snapshot_iff.mpr ?_, hgrows⟩
  rw [hgrows.id]
  exact hgrown

/-- If the catalog answers every template or does not find it, then a flow that is given a plan is
given one as well when any of its formats is replaced by `*` and when anything is added to the
graph, be it nodes, edges, executors of an edge or capabilities of an executor. -/
theorem findPlan_of_growth
    {graph other : Graph} {catalog : Catalog} {flow relaxed : Flow}
    (hreach : graph.Reachable)
    (hcatalog :
      ∀ uri, (∃ template, catalog uri = .ok template) ∨
        ∃ missing, catalog uri = .error (.notFound missing))
    (hplan : ∃ plan, (graph.query catalog flow).findPlan = .ok plan)
    (hrelaxes : flow.RelaxesTo relaxed)
    (hreach' : other.Reachable)
    (hextends : graph.ExtendsTo other) :
    ∃ plan, (other.query catalog relaxed).findPlan = .ok plan := by
  have heases := hextends.easesTo hreach.keyed hreach'.keyed catalog hrelaxes
  exact heases.exists_findPlan (hreach.wellFormed catalog flow)
    (hreach'.wellFormed catalog relaxed) hcatalog hplan

/-- The relay is given a node behind its last one, and its first edge another executor. -/
def relayGrowth : List Graph.Update :=
  [.node (.add (.plain "D" "adl")), .edge (.add (relayEdge "C" "D" "slow")),
    .edge (.upsert (.plain "A" "B" "fast" passOn.uri
      [.ofCapabilities "copy" [⟨Key.any, Key.any⟩, ⟨"hdfs", "adl"⟩],
        .ofCapabilities "move" [⟨"hdfs", "hdfs"⟩]]))]

theorem growing_relayGrowth :
    relayGraph.Growing relayGrowth := by
  refine ⟨trivial, trivial, ?_, trivial⟩
  intro old hold
  obtain rfl : relayEdge "A" "B" "fast" = old := Option.some.inj hold
  refine ⟨rfl, rfl, rfl, rfl, rfl, ?_⟩
  intro position executor hexecutor
  cases position with
  | zero =>
      cases hexecutor
      exact ⟨_, rfl, rfl, by simp [Executor.ofCapabilities]⟩
  | succ position =>
      cases hexecutor

theorem findPlan_of_growth_relay :
    (∃ plan,
      (relayGraph.query relayCatalog
        { relayFlow with inputFormat := Key.any, outputFormat := Key.any }).findPlan =
          .ok plan) ∧
    ∃ plan,
      ((relayGraph.replay relayGrowth).query relayCatalog relayFlow).findPlan = .ok plan := by
  have hcatalog := TemplateShelf.catalog_answers (TemplateShelf.add ∅ passOn)
  constructor
  · refine findPlan_of_growth reachable_relayGraph hcatalog ⟨_, findPlan_relay⟩ ?_
      reachable_relayGraph (.refl _)
    exact ⟨rfl, rfl, Or.inr rfl, Or.inr rfl⟩
  · exact findPlan_of_growth reachable_relayGraph hcatalog ⟨_, findPlan_relay⟩ (.refl _)
      (Graph.Reachable.replay reachable_relayGraph relayGrowth)
      (Graph.extendsTo_replay growing_relayGrowth)

end HopRouting
