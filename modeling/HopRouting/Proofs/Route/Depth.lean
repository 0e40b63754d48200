import Mathlib.Data.List.Nodup
import HopRouting.Proofs.Route.Backtracking
import HopRouting.Proofs.Route.Correctness

/-!
# Depth of the search

The search is made of calls, one for each node it stands at, and each of them goes through the
edges that leave its node.  `RouteQuery.Reaches` says where in this a search for the flow can come,
with how many hops left, and with which trail.

**Trail.**  `KeepsTrail` is what holds of the trail wherever the search comes: it has visited the
source of the flow and what its hops enter, all of them different nodes of the snapshot, and the
hops and those that are left are as many as there are nodes (`Reaches.keepsTrail`).

**Guard.**  `Wanders` is the search with no bound but a condition on the trail, at which a call
gives up; it need not come to an end.  If the condition holds of no trail with fewer hops than there
are nodes, then wherever the search is called this one ends, with the same answer
(`wanders_call_iff`).  So it does with the guard `isDeep`, which is what the bound stands for, and
with none.

**Result.**  `search_keeps_trail` puts this together for all calls of the search, with what a call
does that fails: it leaves the trail as it found it.
-/

namespace HopRouting

/-- Where the search can be. -/
inductive SearchPoint where
  /-- It is called at a node, with data in a format. -/
  | call (id format : String)
  /-- It has these edges of the node before it. -/
  | loop (format : String) (edges : List Edge)
  /-- It attempts this one. -/
  | edge (format : String) (edge : Edge)

namespace RouteQuery

/-- The search for the flow comes to the point, with at most so many hops left and with the
trail. -/
inductive Reaches (query : RouteQuery) : SearchPoint → Nat → Trail → Prop
  /-- Between two known nodes with no direct hop, the search is called at the source. -/
  | start
      (hknown : query.unknownEndpoint? = none)
      (hne : query.flow.source ≠ query.flow.destination)
      (hindirect : query.directHop? = .ok none) :
      Reaches query (.call query.flow.source query.flow.inputFormat) query.snapshot.nodeCount
        (.start query.flow.source)
  | begin {budget : Nat} {id format : String} {trail : Trail}
      (hcall : Reaches query (.call id format) (budget + 1) trail) :
      Reaches query (.loop format (query.snapshot.departures id)) (budget + 1) trail
  | turn {budget : Nat} {format : String} {edge : Edge} {rest : List Edge} {trail : Trail}
      (hloop : Reaches query (.loop format (edge :: rest)) (budget + 1) trail) :
      Reaches query (.edge format edge) (budget + 1) trail
  | next {budget : Nat} {format : String} {edge : Edge} {rest : List Edge} {trail after : Trail}
      (hloop : Reaches query (.loop format (edge :: rest)) (budget + 1) trail)
      (hfailed : query.attempt budget format edge trail = .ok (false, after)) :
      Reaches query (.loop format rest) (budget + 1) after
  | onward {budget : Nat} {format : String} {edge : Edge} {trail : Trail} {hop : Hop}
      (hedge : Reaches query (.edge format edge) (budget + 1) trail)
      (hnew : edge.destination ∉ trail.visited)
      (hhop : query.hop? edge format = .ok (some hop))
      (hfurther : edge.destination ≠ query.flow.destination) :
      Reaches query (.call edge.destination hop.outputFormat) budget
        ((trail.push hop).enter edge.destination)

/-- The trail is one from the source of the flow, and so many hops are left. -/
structure KeepsTrail (query : RouteQuery) (budget : Nat) (trail : Trail) : Prop where
  visited :
    ∀ node, node ∈ trail.visited ↔ node ∈ query.flow.source :: entered trail.hops
  simple : (query.flow.source :: entered trail.hops).Nodup
  present : ∀ node ∈ query.flow.source :: entered trail.hops, node ∈ query.snapshot.nodes
  budget : budget + trail.hops.length = query.snapshot.nodeCount

section Trails

variable {query : RouteQuery} {budget : Nat} {trail : Trail}

theorem KeepsTrail.length_lt
    (hkeeps : query.KeepsTrail budget trail) :
    trail.hops.length < query.snapshot.nodeCount :=
  length_lt_nodeCount hkeeps.simple hkeeps.present

theorem KeepsTrail.budget_ne_zero
    (hkeeps : query.KeepsTrail budget trail) :
    budget ≠ 0 := by
  have hlength := hkeeps.length_lt
  have hbudget := hkeeps.budget
  omega

theorem keepsTrail_start
    (hsource : query.flow.source ∈ query.snapshot.nodes) :
    query.KeepsTrail query.snapshot.nodeCount (.start query.flow.source) where
  visited := by
    intro node
    rw [Trail.start, Std.ExtTreeSet.mem_insert, Std.LawfulEqOrd.compare_eq_iff_eq, eq_comm]
    simp
  simple := by simp [Trail.start]
  present := by simpa [Trail.start] using hsource
  budget := rfl

theorem KeepsTrail.onward
    (hkeeps : query.KeepsTrail (budget + 1) trail)
    {edge : Edge} {format : String} {hop : Hop}
    (hnew : edge.destination ∉ trail.visited)
    (hhop : query.hop? edge format = .ok (some hop)) :
    query.KeepsTrail budget ((trail.push hop).enter edge.destination) := by
  have hentered :
      query.flow.source :: entered ((trail.push hop).enter edge.destination).hops =
        (query.flow.source :: entered trail.hops) ++ [edge.destination] := by
    simp [Trail.push, Trail.enter, edge_eq_of_hop?_eq_some hhop]
  constructor
  · intro node
    rw [hentered, List.mem_append, ← hkeeps.visited, List.mem_singleton, Trail.enter,
      Std.ExtTreeSet.mem_insert, Std.LawfulEqOrd.compare_eq_iff_eq, eq_comm, or_comm, Trail.push]
  · rw [hentered, ← List.concat_eq_append, List.nodup_concat]
    exact ⟨mt (hkeeps.visited _).mpr hnew, hkeeps.simple⟩
  · intro node hnode
    rw [hentered, List.mem_append, List.mem_singleton] at hnode
    rcases hnode with hnode | rfl
    · exact hkeeps.present node hnode
    · exact destination_mem_of_hop?_eq_some hhop
  · have hbudget := hkeeps.budget
    simp only [Trail.push, Trail.enter, List.length_append, List.length_singleton]
    omega

/-- Wherever the search comes, its trail is one from the source of the flow. -/
theorem Reaches.keepsTrail
    {point : SearchPoint}
    (hreaches : query.Reaches point budget trail) :
    query.KeepsTrail budget trail := by
  induction hreaches with
  | start hknown hne hindirect =>
      exact keepsTrail_start (unknownEndpoint?_eq_none_iff.mp hknown).1
  | begin hcall ih =>
      exact ih
  | turn hloop ih =>
      exact ih
  | next hloop hfailed ih =>
      rw [eq_of_attempt_eq_false hfailed]
      exact ih
  | onward hedge hnew hhop hfurther ih =>
      exact ih.onward hnew hhop

end Trails

/-- The trail has as many hops as there are nodes. -/
def isDeep (query : RouteQuery) (trail : Trail) : Bool :=
  query.snapshot.nodeCount ≤ trail.hops.length

theorem isDeep_eq_false_iff
    {query : RouteQuery} {trail : Trail} :
    query.isDeep trail = false ↔ trail.hops.length < query.snapshot.nodeCount := by
  rw [isDeep, decide_eq_false_iff_not, Nat.not_le]

/-- From the point, a search with no bound but that it gives up at some trails ends with the
answer. -/
inductive Wanders (query : RouteQuery) (givesUp : Trail → Bool) :
    SearchPoint → Trail → Except RouteError (Bool × Trail) → Prop
  | refuse {id format : String} {trail : Trail}
      (hrefused : givesUp trail = true) :
      Wanders query givesUp (.call id format) trail (.ok (false, trail))
  | call {id format : String} {trail : Trail} {answer : Except RouteError (Bool × Trail)}
      (hkept : givesUp trail = false)
      (hloop : Wanders query givesUp (.loop format (query.snapshot.departures id)) trail answer) :
      Wanders query givesUp (.call id format) trail answer
  | nil {format : String} {trail : Trail} :
      Wanders query givesUp (.loop format []) trail (.ok (false, trail))
  | ended {format : String} {edge : Edge} {rest : List Edge} {trail : Trail}
      {answer : Except RouteError (Bool × Trail)}
      (hedge : Wanders query givesUp (.edge format edge) trail answer)
      (hends : ∀ after, answer ≠ .ok (false, after)) :
      Wanders query givesUp (.loop format (edge :: rest)) trail answer
  | failed {format : String} {edge : Edge} {rest : List Edge} {trail after : Trail}
      {answer : Except RouteError (Bool × Trail)}
      (hedge : Wanders query givesUp (.edge format edge) trail (.ok (false, after)))
      (hrest : Wanders query givesUp (.loop format rest) after answer) :
      Wanders query givesUp (.loop format (edge :: rest)) trail answer
  | visited {format : String} {edge : Edge} {trail : Trail}
      (hvisited : edge.destination ∈ trail.visited) :
      Wanders query givesUp (.edge format edge) trail (.ok (false, trail))
  | error {format : String} {edge : Edge} {trail : Trail} {cause : RouteError}
      (hnew : edge.destination ∉ trail.visited)
      (hhop : query.hop? edge format = .error cause) :
      Wanders query givesUp (.edge format edge) trail (.error cause)
  | unusable {format : String} {edge : Edge} {trail : Trail}
      (hnew : edge.destination ∉ trail.visited)
      (hhop : query.hop? edge format = .ok none) :
      Wanders query givesUp (.edge format edge) trail (.ok (false, trail))
  | arrive {format : String} {edge : Edge} {trail : Trail} {hop : Hop}
      (hnew : edge.destination ∉ trail.visited)
      (hhop : query.hop? edge format = .ok (some hop))
      (harrived : edge.destination = query.flow.destination) :
      Wanders query givesUp (.edge format edge) trail (.ok (true, trail.push hop))
  | onward {format : String} {edge : Edge} {trail : Trail} {hop : Hop}
      {answer : Except RouteError (Bool × Trail)}
      (hnew : edge.destination ∉ trail.visited)
      (hhop : query.hop? edge format = .ok (some hop))
      (hfurther : edge.destination ≠ query.flow.destination)
      (hcall :
        Wanders query givesUp (.call edge.destination hop.outputFormat)
          ((trail.push hop).enter edge.destination) answer) :
      Wanders query givesUp (.edge format edge) trail (retreatFrom edge.destination answer)

/-- What the answer of the search means for the flow. -/
def routeOf (query : RouteQuery) :
    Except RouteError (Bool × Trail) → Except RouteError (List Hop)
  | .error cause => .error cause
  | .ok (true, trail) => .ok trail.hops
  | .ok (false, _) => .error query.noRoute

/-- With a search that gives up at some trails, the hops of the route that is taken for the flow, or
the error, would be this. -/
def WandersTo (query : RouteQuery) (givesUp : Trail → Bool)
    (result : Except RouteError (List Hop)) : Prop :=
  match query.unknownEndpoint? with
  | some id => result = .error (.unknownEndpoint id)
  | none =>
    if query.flow.source = query.flow.destination then result = .error query.noRoute
    else match query.directHop? with
      | .error cause => result = .error cause
      | .ok (some hop) => result = .ok [hop]
      | .ok none =>
        ∃ answer,
          query.Wanders givesUp (.call query.flow.source query.flow.inputFormat)
            (.start query.flow.source) answer ∧
          result = query.routeOf answer

section Wandering

variable {query : RouteQuery} {givesUp : Trail → Bool}
  {answer : Except RouteError (Bool × Trail)}

section Steps

variable {budget : Nat}
  (hcalls :
    ∀ {id format trail answer}, query.Reaches (.call id format) budget trail →
      (query.Wanders givesUp (.call id format) trail answer ↔
        query.search budget id format trail = answer))

include hcalls

theorem wanders_edge_iff
    {format : String} {edge : Edge} {trail : Trail}
    (hedge : query.Reaches (.edge format edge) (budget + 1) trail) :
    query.Wanders givesUp (.edge format edge) trail answer ↔
      query.attempt budget format edge trail = answer := by
  constructor
  · intro hwanders
    cases hwanders with
    | visited hvisited =>
        exact attempt_of_visited hvisited
    | error hnew hhop =>
        rw [attempt_of_new hnew, hhop]
    | unusable hnew hhop =>
        rw [attempt_of_new hnew, hhop]
    | arrive hnew hhop harrived =>
        rw [attempt_of_new hnew, hhop]
        exact if_pos harrived
    | onward hnew hhop hfurther hcall =>
        rw [attempt_of_new hnew, hhop, ← (hcalls (hedge.onward hnew hhop hfurther)).mp hcall]
        exact if_neg hfurther
  · rintro rfl
    by_cases hvisited : edge.destination ∈ trail.visited
    · rw [attempt_of_visited hvisited]
      exact .visited hvisited
    · rw [attempt_of_new hvisited]
      cases hhop : query.hop? edge format with
      | error cause =>
          exact .error hvisited hhop
      | ok found =>
          cases found with
          | none =>
              exact .unusable hvisited hhop
          | some hop =>
              by_cases harrived : edge.destination = query.flow.destination
              · simp only [harrived, if_true]
                exact .arrive hvisited hhop harrived
              · simp only [harrived, if_false]
                exact .onward hvisited hhop harrived
                  ((hcalls (hedge.onward hvisited hhop harrived)).mpr rfl)

theorem wanders_loop_iff
    {format : String} {edges : List Edge} {trail : Trail}
    (hloop : query.Reaches (.loop format edges) (budget + 1) trail) :
    query.Wanders givesUp (.loop format edges) trail answer ↔
      tryEdges (query.attempt budget format) edges trail = answer := by
  induction edges generalizing trail answer with
  | nil =>
      constructor
      · intro hwanders
        cases hwanders
        rfl
      · rintro rfl
        exact .nil
  | cons edge rest ih =>
      constructor
      · intro hwanders
        rw [tryEdges]
        cases hwanders with
        | ended hedge hends =>
            rw [(wanders_edge_iff hcalls hloop.turn).mp hedge]
            split
            · rfl
            · rfl
            · exact absurd rfl (hends _)
        | failed hedge hrest =>
            have hfailed := (wanders_edge_iff hcalls hloop.turn).mp hedge
            rw [hfailed]
            exact (ih (hloop.next hfailed)).mp hrest
      · rintro rfl
        rw [tryEdges]
        split
        · next cause hattempt =>
          exact .ended ((wanders_edge_iff hcalls hloop.turn).mpr hattempt) (by simp)
        · next after hattempt =>
          exact .ended ((wanders_edge_iff hcalls hloop.turn).mpr hattempt) (by simp)
        · next after hattempt =>
          exact .failed ((wanders_edge_iff hcalls hloop.turn).mpr hattempt)
            ((ih (hloop.next hattempt)).mpr rfl)

end Steps

section ShortTrails

variable (hshort :
  ∀ trail : Trail, trail.hops.length < query.snapshot.nodeCount → givesUp trail = false)

include hshort

/-- Where no trail is given up that has fewer hops than there are nodes, a call ends with the answer
of the search, and with no other. -/
theorem wanders_call_iff
    {budget : Nat} {id format : String} {trail : Trail}
    (hcall : query.Reaches (.call id format) budget trail) :
    query.Wanders givesUp (.call id format) trail answer ↔
      query.search budget id format trail = answer := by
  induction budget generalizing id format trail answer with
  | zero =>
      exact absurd rfl hcall.keepsTrail.budget_ne_zero
  | succ budget ih =>
      have hkept := hshort trail hcall.keepsTrail.length_lt
      rw [search_succ, ← wanders_loop_iff ih hcall.begin]
      constructor
      · intro hwanders
        cases hwanders with
        | refuse hrefused =>
            rw [hkept] at hrefused
            cases hrefused
        | call _ hloop =>
            exact hloop
      · exact .call hkept

theorem wandersTo_iff
    {result : Except RouteError (List Hop)} :
    query.WandersTo givesUp result ↔ query.findRoute = result := by
  unfold WandersTo findRoute
  cases hknown : query.unknownEndpoint? with
  | some id =>
      exact eq_comm
  | none =>
      by_cases hsame : query.flow.source = query.flow.destination
      · simp only [hsame, if_true, eq_comm]
      · simp only [hsame, if_false]
        cases hdirect : query.directHop? with
        | error cause =>
            exact eq_comm
        | ok found =>
            cases found with
            | some hop =>
                exact eq_comm
            | none =>
                simp only [wanders_call_iff hshort (.start hknown hsame hdirect),
                  exists_eq_left']
                exact eq_comm

end ShortTrails

end Wandering

/-- In every call of the search for the flow, the trail has visited the source of the flow and what
its hops enter, which are different nodes of the snapshot, so that it is not deep.  With the guard
or without any, the call and the search for the route would end with the answers that they have, and
with no others.  A call that fails leaves the trail as it found it. -/
theorem search_keeps_trail
    (query : RouteQuery) :
    (∀ budget id format trail, query.Reaches (.call id format) budget trail →
      ((∀ node, node ∈ trail.visited ↔ node ∈ query.flow.source :: entered trail.hops) ∧
        (query.flow.source :: entered trail.hops).Nodup ∧
        (∀ node ∈ query.flow.source :: entered trail.hops, node ∈ query.snapshot.nodes) ∧
        trail.hops.length + 1 ≤ query.snapshot.nodeCount ∧
        query.isDeep trail = false) ∧
      (∀ answer,
        (query.Wanders query.isDeep (.call id format) trail answer ↔
          query.search budget id format trail = answer) ∧
        (query.Wanders (fun _ => false) (.call id format) trail answer ↔
          query.search budget id format trail = answer)) ∧
      ∀ after, query.search budget id format trail = .ok (false, after) → after = trail) ∧
    ∀ result,
      (query.WandersTo query.isDeep result ↔ query.findRoute = result) ∧
      (query.WandersTo (fun _ => false) result ↔ query.findRoute = result) := by
  have hguard :
      ∀ trail : Trail, trail.hops.length < query.snapshot.nodeCount →
        query.isDeep trail = false :=
    fun _ => isDeep_eq_false_iff.mpr
  have hnever :
      ∀ trail : Trail, trail.hops.length < query.snapshot.nodeCount →
        (fun _ => false : Trail → Bool) trail = false :=
    fun _ _ => rfl
  refine ⟨?_, fun _ => ⟨wandersTo_iff hguard, wandersTo_iff hnever⟩⟩
  intro budget id format trail hcall
  have hkeeps := hcall.keepsTrail
  refine ⟨⟨hkeeps.visited, hkeeps.simple, hkeeps.present, hkeeps.length_lt, ?_⟩,
    fun _ => ⟨wanders_call_iff hguard hcall, wanders_call_iff hnever hcall⟩,
    fun _ => eq_of_search_eq_false⟩
  exact hguard trail hkeeps.length_lt

/-- The relay is searched from its second node on, with the first one visited. -/
theorem search_keeps_trail_relay :
    (∀ node,
      node ∈ (((Trail.start "A").push (relayHop (relayEdge "A" "B" "fast"))).enter "B").visited ↔
        node ∈ ["A", "B"]) ∧
    (relayGraph.query relayCatalog relayFlow).WandersTo (fun _ => false) (.ok relayRoute) := by
  have hcall :
      (relayGraph.query relayCatalog relayFlow).Reaches (.call "B" "avro") 2
        (((Trail.start "A").push (relayHop (relayEdge "A" "B" "fast"))).enter "B") := by
    have hstart :
        (relayGraph.query relayCatalog relayFlow).Reaches (.call "A" "avro") 3 (.start "A") :=
      Reaches.start rfl (by decide) rfl
    have hdepartures :
        relayGraph.snapshot.departures "A" =
          [relayEdge "A" "B" "fast", relayEdge "A" "B" "slow"] := rfl
    have hloop := hstart.begin
    rw [Graph.query, hdepartures] at hloop
    exact hloop.turn.onward (by decide) rfl (by decide)
  obtain ⟨hcalls, hroutes⟩ := search_keeps_trail (relayGraph.query relayCatalog relayFlow)
  exact ⟨(hcalls _ _ _ _ hcall).1.1, (hroutes _).2.mpr rfl⟩

end RouteQuery

end HopRouting
