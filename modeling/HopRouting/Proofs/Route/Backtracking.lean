import HopRouting.Proofs.Route.Routes

/-!
# Route search without a trail

The search carries a trail, to which it adds hops and from which it takes them back.  Here the same
search is written without one: `RouteQuery.complete?` is given the nodes visited so far and answers
the hops that lead on from a node to the destination of the flow, if it finds any.

`search_eq` says that the two are one search.  A search that finds nothing leaves the trail as it
was, and a search that finds hops leaves the trail with those hops at its end.
-/

namespace HopRouting

/-- Tries items in turn until one gives something.  A failure ends the attempts. -/
def firstFound {α β ε : Type} (attempt : α → Except ε (Option β)) :
    List α → Except ε (Option β)
  | [] => .ok none
  | item :: rest =>
      match attempt item with
      | .ok none => firstFound attempt rest
      | found => found

theorem exists_of_firstFound
    {α β ε : Type}
    {attempt : α → Except ε (Option β)}
    {items : List α} {value : β}
    (hfound : firstFound attempt items = .ok (some value)) :
    ∃ item ∈ items, attempt item = .ok (some value) := by
  induction items with
  | nil =>
      cases hfound
  | cons item rest ih =>
      unfold firstFound at hfound
      split at hfound
      · obtain ⟨other, hother, hvalue⟩ := ih hfound
        exact ⟨other, List.mem_cons_of_mem _ hother, hvalue⟩
      · exact ⟨item, List.mem_cons_self, hfound⟩

namespace Trail

/-- The trail after the hops of a completion.  The node that the last hop enters is not noted as
visited, because the search ends there. -/
def follow (trail : Trail) : List Hop → Trail
  | [] => trail
  | [hop] => trail.push hop
  | hop :: next :: rest =>
      ((trail.push hop).enter hop.edge.destination).follow (next :: rest)

/-- What the search answers with a trail, by what it finds without one. -/
def conclude (trail : Trail) : Option (List Hop) → Bool × Trail
  | none => (false, trail)
  | some hops => (true, trail.follow hops)

theorem follow_cons
    (trail : Trail)
    (hop : Hop)
    {rest : List Hop}
    (hrest : rest ≠ []) :
    trail.follow (hop :: rest) =
      ((trail.push hop).enter hop.edge.destination).follow rest := by
  cases rest with
  | nil =>
      exact absurd rfl hrest
  | cons next rest =>
      rfl

theorem hops_follow
    (trail : Trail)
    (hops : List Hop) :
    (trail.follow hops).hops = trail.hops ++ hops := by
  induction hops generalizing trail with
  | nil =>
      simp [follow]
  | cons hop rest ih =>
      cases rest with
      | nil =>
          rfl
      | cons next rest =>
          rw [follow_cons trail hop (List.cons_ne_nil next rest), ih]
          simp [enter, push]

/-- Taking a hop back restores the trail, if its destination had not been visited. -/
theorem retreat_enter_push
    (trail : Trail)
    (hop : Hop)
    {id : String}
    (hnew : id ∉ trail.visited) :
    ((trail.push hop).enter id).retreat id = trail := by
  have hvisited : (trail.visited.insert id).erase id = trail.visited := by
    apply Std.ExtTreeSet.ext_mem
    intro node
    rw [Std.ExtTreeSet.mem_erase, Std.ExtTreeSet.mem_insert]
    constructor
    · rintro ⟨hne, heq | hmem⟩
      · exact absurd heq hne
      · exact hmem
    · intro hmem
      refine ⟨?_, Or.inr hmem⟩
      intro heq
      rw [Std.LawfulEqOrd.compare_eq_iff_eq] at heq
      exact hnew (heq ▸ hmem)
  simp [retreat, enter, push, hvisited]

end Trail

namespace RouteQuery

/-- The answer for a hop by the answer behind it: a hop that does not lead on is taken back. -/
def retreatFrom (id : String) :
    Except RouteError (Bool × Trail) → Except RouteError (Bool × Trail)
  | .ok (false, trail) => .ok (false, trail.retreat id)
  | found => found

/-- Tries to complete the trail over an edge, with at most `budget` hops behind it. -/
def attempt
    (query : RouteQuery)
    (budget : Nat)
    (format : String)
    (edge : Edge)
    (trail : Trail) : Except RouteError (Bool × Trail) :=
  if trail.visited.contains edge.destination then .ok (false, trail)
  else
    match query.hop? edge format with
    | .error cause => .error cause
    | .ok none => .ok (false, trail)
    | .ok (some hop) =>
        if edge.destination = query.flow.destination then .ok (true, trail.push hop)
        else
          retreatFrom edge.destination
            (query.search budget edge.destination hop.outputFormat
              ((trail.push hop).enter edge.destination))

/-- The search attempts the edges that leave a node, one after the other. -/
theorem search_succ
    (query : RouteQuery)
    (budget : Nat)
    (id format : String)
    (trail : Trail) :
    query.search (budget + 1) id format trail =
      tryEdges (query.attempt budget format) (query.snapshot.departures id) trail := by
  rfl

/-- Tries to lead on over an edge, where `onward` leads on from the node that it enters. -/
def attempt?
    (query : RouteQuery)
    (onward : Std.ExtTreeSet String → String → String → Except RouteError (Option (List Hop)))
    (visited : Std.ExtTreeSet String)
    (format : String)
    (edge : Edge) : Except RouteError (Option (List Hop)) :=
  if visited.contains edge.destination then .ok none
  else
    match query.hop? edge format with
    | .error cause => .error cause
    | .ok none => .ok none
    | .ok (some hop) =>
        if edge.destination = query.flow.destination then .ok (some [hop])
        else
          (onward (visited.insert edge.destination) edge.destination hop.outputFormat).map
            (Option.map (hop :: ·))

/-- The first hops found that lead on from a node where data is in a format to the destination of
the flow, at most `budget` of them, past nodes that are not visited. -/
def complete? (query : RouteQuery) :
    Nat → Std.ExtTreeSet String → String → String → Except RouteError (Option (List Hop))
  | 0, _, _, _ => .ok none
  | budget + 1, visited, id, format =>
      firstFound (query.attempt? (query.complete? budget) visited format)
        (query.snapshot.departures id)

section Search

variable {query : RouteQuery}

theorem attempt_of_visited
    {budget : Nat} {format : String} {edge : Edge} {trail : Trail}
    (hvisited : edge.destination ∈ trail.visited) :
    query.attempt budget format edge trail = .ok (false, trail) := by
  rw [attempt, if_pos (Std.ExtTreeSet.contains_iff_mem.mpr hvisited)]

theorem attempt_of_new
    {budget : Nat} {format : String} {edge : Edge} {trail : Trail}
    (hnew : edge.destination ∉ trail.visited) :
    query.attempt budget format edge trail =
      match query.hop? edge format with
      | .error cause => .error cause
      | .ok none => .ok (false, trail)
      | .ok (some hop) =>
          if edge.destination = query.flow.destination then .ok (true, trail.push hop)
          else
            retreatFrom edge.destination
              (query.search budget edge.destination hop.outputFormat
                ((trail.push hop).enter edge.destination)) := by
  rw [attempt, if_neg (mt Std.ExtTreeSet.contains_iff_mem.mp hnew)]

theorem complete?_ne_nil
    {budget : Nat} {visited : Std.ExtTreeSet String} {id format : String} {hops : List Hop}
    (hfound : query.complete? budget visited id format = .ok (some hops)) :
    hops ≠ [] := by
  cases budget with
  | zero =>
      cases hfound
  | succ budget =>
      obtain ⟨edge, -, hattempt⟩ := exists_of_firstFound hfound
      unfold attempt? at hattempt
      split at hattempt
      · cases hattempt
      · split at hattempt
        · cases hattempt
        · cases hattempt
        · next hop hhop =>
            split at hattempt
            · cases hattempt
              exact List.cons_ne_nil _ _
            · cases honward : query.complete? budget (visited.insert edge.destination)
                  edge.destination hop.outputFormat with
              | error cause =>
                  rw [honward] at hattempt
                  cases hattempt
              | ok answer =>
                  rw [honward] at hattempt
                  cases answer with
                  | none =>
                      cases hattempt
                  | some rest =>
                      cases hattempt
                      exact List.cons_ne_nil _ _

theorem tryEdges_eq
    {attempt : Edge → Trail → Except RouteError (Bool × Trail)}
    {found : Edge → Except RouteError (Option (List Hop))}
    {trail : Trail}
    (hattempt : ∀ edge, attempt edge trail = (found edge).map trail.conclude)
    (edges : List Edge) :
    tryEdges attempt edges trail = (firstFound found edges).map trail.conclude := by
  induction edges with
  | nil =>
      rfl
  | cons edge rest ih =>
      unfold tryEdges firstFound
      rw [hattempt edge]
      cases found edge with
      | error cause =>
          rfl
      | ok answer =>
          cases answer with
          | none =>
              exact ih
          | some hops =>
              rfl

/-- Attempts over an edge agree if the searches beyond it do. -/
theorem attempt_eq
    {budget : Nat}
    (hsearch :
      ∀ id format trail,
        query.search budget id format trail =
          (query.complete? budget trail.visited id format).map trail.conclude)
    (format : String)
    (edge : Edge)
    (trail : Trail) :
    query.attempt budget format edge trail =
      (query.attempt? (query.complete? budget) trail.visited format edge).map
        trail.conclude := by
  unfold attempt attempt?
  by_cases hvisited : trail.visited.contains edge.destination = true
  · simp only [hvisited, if_true]
    rfl
  · simp only [hvisited, Bool.false_eq_true, if_false]
    cases hhop : query.hop? edge format with
    | error cause =>
        rfl
    | ok found =>
        cases found with
        | none =>
            rfl
        | some hop =>
            by_cases harrived : edge.destination = query.flow.destination
            · simp only [harrived, if_true]
              rfl
            · simp only [harrived, if_false]
              have hnew : edge.destination ∉ trail.visited := by
                rwa [← Std.ExtTreeSet.contains_iff_mem]
              have hback := trail.retreat_enter_push hop hnew
              have hedge := edge_eq_of_hop?_eq_some hhop
              have hinsert :
                  ((trail.push hop).enter edge.destination).visited =
                    trail.visited.insert edge.destination := rfl
              rw [hsearch, hinsert]
              cases honward : query.complete? budget
                  (trail.visited.insert edge.destination) edge.destination
                  hop.outputFormat with
              | error cause =>
                  rfl
              | ok answer =>
                  cases answer with
                  | none =>
                      simp [Except.map, Trail.conclude, retreatFrom, hback]
                  | some rest =>
                      have hfollow := trail.follow_cons hop (complete?_ne_nil honward)
                      rw [hedge] at hfollow
                      simp [Except.map, Trail.conclude, retreatFrom, hfollow]

/-- The search with a trail is the search without one. -/
theorem search_eq
    (budget : Nat)
    (id format : String)
    (trail : Trail) :
    query.search budget id format trail =
      (query.complete? budget trail.visited id format).map trail.conclude := by
  -- the trail is arbitrary: the search beyond a hop starts from a longer one
  induction budget generalizing id format trail with
  | zero =>
      rfl
  | succ budget ih =>
      rw [search_succ, complete?]
      exact tryEdges_eq (fun edge => attempt_eq ih format edge trail) _

/-- What finds nothing leaves the trail as it was. -/
theorem eq_of_map_conclude
    {trail after : Trail} {found : Except RouteError (Option (List Hop))}
    (hfailed : found.map trail.conclude = .ok (false, after)) :
    after = trail := by
  cases found with
  | error cause =>
      cases hfailed
  | ok answer =>
      cases answer with
      | none =>
          cases hfailed
          rfl
      | some hops =>
          cases hfailed

theorem eq_of_search_eq_false
    {budget : Nat} {id format : String} {trail after : Trail}
    (hfailed : query.search budget id format trail = .ok (false, after)) :
    after = trail := by
  rw [search_eq] at hfailed
  exact eq_of_map_conclude hfailed

theorem eq_of_attempt_eq_false
    {budget : Nat} {format : String} {edge : Edge} {trail after : Trail}
    (hfailed : query.attempt budget format edge trail = .ok (false, after)) :
    after = trail := by
  rw [attempt_eq (search_eq budget)] at hfailed
  exact eq_of_map_conclude hfailed

end Search

end RouteQuery

end HopRouting
