import HopRouting.Proofs.Route.Correctness

/-!
# Failing lookups

A catalog may fail on a template otherwise than by not finding it.  The softened catalog answers
such a lookup as if there were no template, and the search then passes over the edge.

**Answers.**  The search with the softened catalog makes the same lookups as before, up to the
first one that fails.  So every partial result that the search comes to is a result of the search
with the softened catalog (`RouteQuery.complete?_softened`), and so is the answer in the end,
unless a failing lookup is the answer (`RouteQuery.findRoute_softened`).

**Failures.**  A template is looked up only for an edge that hops have come to.
`RouteQuery.Approaches` follows the hops from the node where a part of the search begins;
`RouteQuery.exists_approaches_of_complete?` shows that every failure is that of an edge so
approached.

**Result.**  `findPlan_of_failing_lookups`: failing lookups end the search or have no influence.
-/

namespace HopRouting

namespace Catalog

/-- The lookup fails, and not because there is no template. -/
def FailsOn (catalog : Catalog) (uri : String) (cause : CatalogError) : Prop :=
  catalog uri = .error cause ∧ ∀ missing, cause ≠ .notFound missing

/-- The catalog that does not find what the other one fails on. -/
def softened (catalog : Catalog) : Catalog := fun uri =>
  match catalog uri with
  | .ok template => .ok template
  | .error (.notFound missing) => .error (.notFound missing)
  | .error _ => .error (.notFound uri)

theorem softened_of_ok
    {catalog : Catalog} {uri : String} {template : Template}
    (hlookup : catalog uri = .ok template) :
    catalog.softened uri = .ok template := by
  rw [softened, hlookup]

theorem softened_of_notFound
    {catalog : Catalog} {uri missing : String}
    (hlookup : catalog uri = .error (.notFound missing)) :
    catalog.softened uri = .error (.notFound missing) := by
  rw [softened, hlookup]

end Catalog

/-- An attempt that always answers what another one does finds the same. -/
theorem firstFound_eq_ok_of_forall
    {α β ε : Type}
    {attempt attempt' : α → Except ε (Option β)}
    {items : List α}
    (hsame : ∀ item ∈ items, ∀ answer, attempt item = .ok answer → attempt' item = .ok answer)
    {answer : Option β}
    (hanswer : firstFound attempt items = .ok answer) :
    firstFound attempt' items = .ok answer := by
  induction items with
  | nil =>
      exact hanswer
  | cons item rest ih =>
      unfold firstFound at hanswer ⊢
      split at hanswer
      · next hnone =>
          rw [hsame item List.mem_cons_self none hnone]
          exact ih (fun other hother => hsame other (List.mem_cons_of_mem _ hother)) hanswer
      · next hfound =>
          have hitem := hsame item List.mem_cons_self answer hanswer
          rw [hitem]
          cases answer with
          | none => exact absurd hanswer hfound
          | some value => rfl

namespace RouteQuery

/-- The same question, asked of the softened catalog. -/
def softened (query : RouteQuery) : RouteQuery :=
  { query with catalog := query.catalog.softened }

section Softened

variable {query : RouteQuery}

theorem hop?_softened
    {edge : Edge} {format : String} {answer : Option Hop}
    (hanswer : query.hop? edge format = .ok answer) :
    query.softened.hop? edge format = .ok answer := by
  have hsame : query.softened.activeEnds? edge = query.activeEnds? edge := rfl
  have hcatalog : query.softened.catalog = query.catalog.softened := rfl
  unfold hop? at hanswer ⊢
  rw [hsame, hcatalog]
  cases hends : query.activeEnds? edge with
  | none =>
      rw [hends] at hanswer
      exact hanswer
  | some ends =>
      obtain ⟨source, destination⟩ := ends
      rw [hends] at hanswer
      cases hlookup : query.catalog edge.templateUri with
      | ok template =>
          rw [hlookup] at hanswer
          rw [Catalog.softened_of_ok hlookup]
          exact hanswer
      | error cause =>
          rw [hlookup] at hanswer
          cases cause with
          | notFound missing =>
              rw [Catalog.softened_of_notFound hlookup]
              exact hanswer
          | unsupportedUri uri =>
              cases hanswer
          | invalid uri reason =>
              cases hanswer

theorem complete?_softened
    {budget : Nat} {visited : Std.ExtTreeSet String} {id format : String}
    {answer : Option (List Hop)}
    (hanswer : query.complete? budget visited id format = .ok answer) :
    query.softened.complete? budget visited id format = .ok answer := by
  induction budget generalizing visited id format answer with
  | zero =>
      exact hanswer
  | succ budget ih =>
      apply firstFound_eq_ok_of_forall _ hanswer
      intro edge _ found hfound
      unfold attempt? at hfound ⊢
      split at hfound
      · next hvisited =>
          rwa [if_pos hvisited]
      · next hnew =>
          rw [if_neg hnew]
          split at hfound
          · cases hfound
          · next hnone =>
              rw [hop?_softened hnone]
              exact hfound
          · next hop hhop =>
              rw [hop?_softened hhop]
              have hflow : query.softened.flow = query.flow := rfl
              simp only [hflow]
              split at hfound
              · next harrived =>
                  rwa [if_pos harrived]
              · next hfurther =>
                  rw [if_neg hfurther]
                  cases honward : query.complete? budget (visited.insert edge.destination)
                      edge.destination hop.outputFormat with
                  | error cause =>
                      rw [honward] at hfound
                      cases hfound
                  | ok onward =>
                      rw [honward] at hfound
                      rw [ih honward]
                      exact hfound

theorem directHop?_softened
    {answer : Option Hop}
    (hanswer : query.directHop? = .ok answer) :
    query.softened.directHop? = .ok answer := by
  unfold directHop? at hanswer ⊢
  rw [firstHop?_eq] at hanswer ⊢
  apply firstFound_eq_ok_of_forall _ hanswer
  intro edge _ found hfound
  exact hop?_softened hfound

theorem search_softened
    {budget : Nat} {id format : String} {trail : Trail} {answer : Bool × Trail}
    (hanswer : query.search budget id format trail = .ok answer) :
    query.softened.search budget id format trail = .ok answer := by
  rw [search_eq] at hanswer ⊢
  cases hcomplete : query.complete? budget trail.visited id format with
  | error cause =>
      rw [hcomplete] at hanswer
      cases hanswer
  | ok found =>
      rw [hcomplete] at hanswer
      rw [complete?_softened hcomplete]
      exact hanswer

/-- An answer other than a failed lookup is the answer with the softened catalog. -/
theorem findRoute_softened
    (hanswer : ∀ cause, query.findRoute ≠ .error (.template cause)) :
    query.softened.findRoute = query.findRoute := by
  have hknown : query.softened.unknownEndpoint? = query.unknownEndpoint? := rfl
  have hflow : query.softened.flow = query.flow := rfl
  have hcount : query.softened.snapshot.nodeCount = query.snapshot.nodeCount := rfl
  have hnoRoute : query.softened.noRoute = query.noRoute := rfl
  unfold findRoute at hanswer ⊢
  rw [hknown, hflow, hcount, hnoRoute]
  cases hends : query.unknownEndpoint? with
  | some id =>
      rfl
  | none =>
      rw [hends] at hanswer
      by_cases hsame : query.flow.source = query.flow.destination
      · simp only [hsame, if_true]
      · simp only [hsame, if_false] at hanswer ⊢
        cases hdirect : query.directHop? with
        | error error =>
            obtain ⟨-, cause, -, -, rfl⟩ := directHop?_error hdirect
            rw [hdirect] at hanswer
            exact absurd rfl (hanswer cause)
        | ok direct =>
            rw [directHop?_softened hdirect]
            rw [hdirect] at hanswer
            cases direct with
            | some hop =>
                rfl
            | none =>
                cases hsearch : query.search query.snapshot.nodeCount query.flow.source
                    query.flow.inputFormat (.start query.flow.source) with
                | error error =>
                    obtain ⟨-, cause, -, -, rfl⟩ := search_error hsearch
                    rw [hsearch] at hanswer
                    exact absurd rfl (hanswer cause)
                | ok result =>
                    simp only [search_softened hsearch]

end Softened

/-- The edge is in use, and so are the nodes at its ends. -/
structure InUse (query : RouteQuery) (edge : Edge) : Prop where
  held : query.snapshot.HasEdge edge
  active : edge.active = true
  source :
    ∃ node : Node, query.snapshot.nodes[edge.source]? = some node ∧ node.active = true
  destination :
    ∃ node : Node, query.snapshot.nodes[edge.destination]? = some node ∧ node.active = true

/-- Usable hops lead from a node to the source of the edge.  They and the edge enter nodes that are
not visited, and none of them twice. -/
structure Approaches
    (query : RouteQuery)
    (visited : Std.ExtTreeSet String)
    (id format : String)
    (hops : List Hop)
    (edge : Edge) : Prop where
  leads : query.Leads id format hops edge.source
  simple : (entered hops ++ [edge.destination]).Nodup
  fresh : ∀ node ∈ entered hops ++ [edge.destination], node ∉ visited

section Approached

variable {query : RouteQuery}

theorem Approaches.here
    {visited : Std.ExtTreeSet String} {id format : String} {edge : Edge}
    (hsource : edge.source = id)
    (hnew : edge.destination ∉ visited) :
    query.Approaches visited id format [] edge := by
  constructor
  · exact leads_nil_iff.mpr hsource.symm
  · simp
  · simpa using hnew

theorem Approaches.step
    {visited : Std.ExtTreeSet String} {id format : String}
    {hop : Hop} {hops : List Hop} {edge : Edge}
    (hedge : query.snapshot.HasEdge hop.edge)
    (hsource : hop.edge.source = id)
    (hnew : hop.edge.destination ∉ visited)
    (husable : query.Usable format hop)
    (hbeyond :
      query.Approaches (visited.insert hop.edge.destination) hop.edge.destination
        hop.outputFormat hops edge) :
    query.Approaches visited id format (hop :: hops) edge := by
  constructor
  · exact .step hedge hsource husable hbeyond.leads
  · rw [entered_cons, List.cons_append, List.nodup_cons]
    refine ⟨?_, hbeyond.simple⟩
    intro hagain
    exact hbeyond.fresh _ hagain Std.ExtTreeSet.mem_insert_self
  · intro node hnode
    rw [entered_cons, List.cons_append] at hnode
    rcases List.mem_cons.mp hnode with rfl | hnode
    · exact hnew
    · intro hvisited
      exact hbeyond.fresh node hnode (Std.ExtTreeSet.mem_insert.mpr (Or.inr hvisited))

/-- The check of an edge fails when the edge is in use and the lookup of its template fails. -/
theorem inUse_of_hop?_error
    {edge : Edge} {format : String} {error : RouteError}
    (hheld : query.snapshot.HasEdge edge)
    (hfailed : query.hop? edge format = .error error) :
    query.InUse edge ∧
      ∃ cause, query.catalog.FailsOn edge.templateUri cause ∧ error = .template cause := by
  unfold hop? at hfailed
  split at hfailed
  · cases hfailed
  · next source destination hends =>
      obtain ⟨hactive, hsource, hdestination, hactives, hactived⟩ :=
        activeEnds?_eq_some_iff.mp hends
      split at hfailed
      · cases hfailed
      · cases hfailed
      · next cause hcause hlookup =>
          cases hfailed
          refine ⟨⟨hheld, hactive, ⟨source, hsource, hactives⟩, destination, hdestination,
            hactived⟩, cause, ⟨hlookup, ?_⟩, rfl⟩
          intro missing hmissing
          exact hcause missing hmissing

/-- Where a part of the search fails, it has approached an edge in use whose lookup fails. -/
theorem exists_approaches_of_complete?
    (hwf : query.snapshot.WellFormed)
    {budget : Nat} {visited : Std.ExtTreeSet String} {id format : String} {error : RouteError}
    (hfailed : query.complete? budget visited id format = .error error) :
    ∃ hops edge cause,
      query.Approaches visited id format hops edge ∧
      query.InUse edge ∧
      query.catalog.FailsOn edge.templateUri cause ∧
      error = .template cause := by
  -- the visited nodes grow with the hops, so the rest of the search starts from more of them
  induction budget generalizing visited id format with
  | zero =>
      cases hfailed
  | succ budget ih =>
      obtain ⟨edge, hedge, hattempt⟩ := exists_of_firstFound_error hfailed
      obtain ⟨hheld, hsource⟩ := hwf.mem_departures_iff.mp hedge
      unfold attempt? at hattempt
      split at hattempt
      · cases hattempt
      · next hvisited =>
          have hnew : edge.destination ∉ visited := by
            rwa [← Std.ExtTreeSet.contains_iff_mem]
          split at hattempt
          · next hhop =>
              cases hattempt
              obtain ⟨huse, cause, hfails, rfl⟩ := inUse_of_hop?_error hheld hhop
              exact ⟨[], edge, cause, .here hsource hnew, huse, hfails, rfl⟩
          · cases hattempt
          · next hop hhop =>
              obtain ⟨rfl, husable⟩ := (hop?_eq_some_iff hwf).mp hhop
              split at hattempt
              · cases hattempt
              · cases honward : query.complete? budget (visited.insert hop.edge.destination)
                    hop.edge.destination hop.outputFormat with
                | ok answer =>
                    rw [honward] at hattempt
                    cases hattempt
                | error failure =>
                    rw [honward] at hattempt
                    cases hattempt
                    obtain ⟨hops, failing, cause, hbeyond, huse, hfails, rfl⟩ := ih honward
                    exact ⟨hop :: hops, failing, cause,
                      .step hheld hsource hnew husable hbeyond, huse, hfails, rfl⟩

/-- The search may look up the template of the edge: the edge and its ends are in use, and a route
that visits no node twice leads from the source of the flow to that of the edge and not to its
destination. -/
structure LooksUp (query : RouteQuery) (edge : Edge) : Prop where
  inUse : query.InUse edge
  approached :
    ∃ hops, query.Leads query.flow.source query.flow.inputFormat hops edge.source ∧
      (query.flow.source :: entered hops).Nodup ∧
      edge.destination ∉ query.flow.source :: entered hops

theorem LooksUp.of_approaches
    {hops : List Hop} {edge : Edge}
    (huse : query.InUse edge)
    (happroaches :
      query.Approaches (Trail.start query.flow.source).visited query.flow.source
        query.flow.inputFormat hops edge) :
    query.LooksUp edge := by
  have hstart : query.flow.source ∈ (Trail.start query.flow.source).visited :=
    Std.ExtTreeSet.mem_insert_self
  have hfresh : query.flow.source ∉ entered hops ++ [edge.destination] := by
    intro hagain
    exact happroaches.fresh _ hagain hstart
  have hsimple := List.nodup_cons.mpr ⟨hfresh, happroaches.simple⟩
  rw [← List.cons_append, List.nodup_append] at hsimple
  refine ⟨huse, hops, happroaches.leads, hsimple.1, ?_⟩
  intro hmem
  exact hsimple.2.2 _ hmem _ List.mem_cons_self rfl

/-- A failed lookup that is answered is that of an edge which the search may come to. -/
theorem lookedUp_of_findRoute
    (hwf : query.snapshot.WellFormed)
    {cause : CatalogError}
    (hanswer : query.findRoute = .error (.template cause)) :
    ∃ edge, query.LooksUp edge ∧ query.catalog.FailsOn edge.templateUri cause := by
  unfold findRoute at hanswer
  split at hanswer
  · cases hanswer
  · split at hanswer
    · cases hanswer
    · next hne =>
        split at hanswer
        · next error hdirect =>
            cases hanswer
            unfold directHop? at hdirect
            rw [firstHop?_eq] at hdirect
            obtain ⟨edge, hedge, hhop⟩ := exists_of_firstFound_error hdirect
            rw [List.mem_filter, hwf.mem_departures_iff, decide_eq_true_eq] at hedge
            obtain ⟨⟨hheld, hsource⟩, hdestination⟩ := hedge
            obtain ⟨huse, failure, hfails, hsame⟩ := inUse_of_hop?_error hheld hhop
            cases hsame
            refine ⟨edge, ⟨huse, [], leads_nil_iff.mpr hsource.symm, by simp, ?_⟩, hfails⟩
            rw [hdestination, entered_nil, List.mem_singleton]
            exact fun hsame => hne hsame.symm
        · cases hanswer
        · split at hanswer
          · next error hsearch =>
              cases hanswer
              rw [search_eq] at hsearch
              cases hcomplete : query.complete? query.snapshot.nodeCount
                  (Trail.start query.flow.source).visited query.flow.source
                  query.flow.inputFormat with
              | ok answer =>
                  rw [hcomplete] at hsearch
                  cases hsearch
              | error failure =>
                  rw [hcomplete] at hsearch
                  cases hsearch
                  obtain ⟨hops, edge, failure, happroaches, huse, hfails, hsame⟩ :=
                    exists_approaches_of_complete? hwf hcomplete
                  cases hsame
                  exact ⟨edge, .of_approaches huse happroaches, hfails⟩
          · cases hanswer
          · cases hanswer

end Approached

end RouteQuery

section Lookups

variable {graph : Graph} {catalog : Catalog} {flow : Flow}

/-- A lookup that fails can only end the search.  Any answer but a failed lookup is also given by
the softened catalog; a failed lookup that is answered is that of an edge in use which a route that
visits no node twice has come to; and where no such lookup fails, none is answered. -/
theorem findPlan_of_failing_lookups
    (hreach : graph.Reachable) :
    ((∀ cause, (graph.query catalog flow).findPlan ≠ .error (.template cause)) →
      (graph.query catalog.softened flow).findPlan = (graph.query catalog flow).findPlan) ∧
    (∀ cause, (graph.query catalog flow).findPlan = .error (.template cause) →
      (∀ missing, cause ≠ .notFound missing) ∧
      ∃ edge, (graph.query catalog flow).LooksUp edge ∧
        catalog edge.templateUri = .error cause) ∧
    ((∀ edge, (graph.query catalog flow).LooksUp edge →
        ∀ cause, ¬ catalog.FailsOn edge.templateUri cause) →
      ∀ cause, (graph.query catalog flow).findPlan ≠ .error (.template cause)) := by
  have hfailure :
      ∀ cause, (graph.query catalog flow).findPlan = .error (.template cause) →
        ∃ edge, (graph.query catalog flow).LooksUp edge ∧
          catalog.FailsOn edge.templateUri cause := by
    intro cause hanswer
    rw [RouteQuery.findPlan_eq_error_iff] at hanswer
    exact RouteQuery.lookedUp_of_findRoute (hreach.wellFormed catalog flow) hanswer
  refine ⟨?_, ?_, ?_⟩
  · intro hanswer
    have hroute :
        ∀ cause, (graph.query catalog flow).findRoute ≠ .error (.template cause) := by
      intro cause hfailed
      exact hanswer cause (RouteQuery.findPlan_eq_error_iff.mpr hfailed)
    exact congrArg (Except.map flow.planOfRoute) (RouteQuery.findRoute_softened hroute)
  · intro cause hanswer
    obtain ⟨edge, hlooksUp, hlookup, hother⟩ := hfailure cause hanswer
    exact ⟨hother, edge, hlooksUp, hlookup⟩
  · intro hlookups cause hanswer
    obtain ⟨edge, hlooksUp, hfails⟩ := hfailure cause hanswer
    exact hlookups edge hlooksUp cause hfails

/-- A shelf on which one template is torn. -/
def tornCatalog : Catalog := fun uri =>
  if uri = "FS:///torn.template" then .error (.invalid uri "torn") else relayCatalog uri

/-- The relay with one more edge between its last two nodes, which needs the torn template. -/
def tornRelay (name : String) : Graph :=
  relayGraph.replay
    [.edge (.add (.plain "B" "C" name "FS:///torn.template"
      [.ofCapabilities "copy" [⟨Key.any, Key.any⟩]]))]

/-- The torn template is looked up for an edge that is tried before the one that leads on, and ends
the search; it is not looked up for an edge behind that. -/
theorem findPlan_of_failing_lookups_relay :
    (∃ edge, ((tornRelay "early").query tornCatalog relayFlow).LooksUp edge ∧
      tornCatalog edge.templateUri = .error (.invalid "FS:///torn.template" "torn")) ∧
    ((tornRelay "late").query tornCatalog.softened relayFlow).findPlan =
      .ok (relayFlow.planOfRoute relayRoute) := by
  have hreach : ∀ name, (tornRelay name).Reachable := fun name =>
    Graph.Reachable.replay reachable_relayGraph _
  have hearly :
      ((tornRelay "early").query tornCatalog relayFlow).findPlan =
        .error (.template (.invalid "FS:///torn.template" "torn")) := by
    rfl
  have hlate :
      ((tornRelay "late").query tornCatalog relayFlow).findPlan =
        .ok (relayFlow.planOfRoute relayRoute) := by
    rfl
  obtain ⟨-, hfailed, -⟩ := findPlan_of_failing_lookups (hreach "early")
  obtain ⟨hsoftened, -, -⟩ := findPlan_of_failing_lookups (hreach "late")
  refine ⟨(hfailed _ hearly).2, ?_⟩
  rw [← hlate]
  apply hsoftened
  intro cause hanswer
  rw [hlate] at hanswer
  cases hanswer

end Lookups

end HopRouting
