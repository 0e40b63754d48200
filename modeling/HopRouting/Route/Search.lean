import HopRouting.Route.Hop

/-!
# Route search

**Order.** Edges are tried by increasing id.  An edge that leads straight from the source of the
flow to its destination is preferred; without one, the search goes depth first and takes the first
route it completes, which need not be the shortest.

**Trail.** The search keeps the hops taken and the nodes visited.  A step adds a hop and its
destination; when nothing beyond it leads on, both are taken back, because the node may still be
reached with data in another format.

**Bound.** A route visits no node twice, so the number of nodes bounds the number of hops.
-/

namespace HopRouting

/-- The hops taken so far and the nodes they have visited. -/
structure Trail where
  visited : Std.ExtTreeSet String
  hops : List Hop

namespace Trail

/-- The trail that has only visited the node it starts from. -/
def start (id : String) : Trail := ⟨(∅ : Std.ExtTreeSet String).insert id, []⟩

/-- Takes a hop. -/
def push (trail : Trail) (hop : Hop) : Trail :=
  { trail with hops := trail.hops ++ [hop] }

/-- Notes that the destination of the last hop is visited. -/
def enter (trail : Trail) (id : String) : Trail :=
  { trail with visited := trail.visited.insert id }

/-- Takes the last hop back and forgets that the node was visited. -/
def retreat (trail : Trail) (id : String) : Trail :=
  ⟨trail.visited.erase id, trail.hops.dropLast⟩

end Trail

namespace RouteQuery

/-- Tries the edges in turn until one completes the trail. -/
def tryEdges {ε : Type} (attempt : Edge → Trail → Except ε (Bool × Trail)) :
    List Edge → Trail → Except ε (Bool × Trail)
  | [], trail => .ok (false, trail)
  | edge :: rest, trail =>
    match attempt edge trail with
    | .error cause => .error cause
    | .ok (true, trail) => .ok (true, trail)
    | .ok (false, trail) => tryEdges attempt rest trail

/-- Completes the trail from a node where data is in `format` to the destination of the flow, with
at most `budget` more hops.  Answers whether that succeeded, and the trail afterwards. -/
def search (query : RouteQuery) (budget : Nat) (id format : String) (trail : Trail) :
    Except RouteError (Bool × Trail) :=
  match budget with
  | 0 => .ok (false, trail)
  | budget + 1 =>
    tryEdges (fun edge trail =>
      if trail.visited.contains edge.destination then .ok (false, trail)
      else match query.hop? edge format with
        | .error cause => .error cause
        | .ok none => .ok (false, trail)
        | .ok (some hop) =>
          if edge.destination = query.flow.destination then .ok (true, trail.push hop)
          else
            match query.search budget edge.destination hop.outputFormat
                ((trail.push hop).enter edge.destination) with
            | .ok (false, trail) => .ok (false, trail.retreat edge.destination)
            | found => found)
      (query.snapshot.departures id) trail

/-- The hop over the first usable one of the edges. -/
def firstHop? (query : RouteQuery) (format : String) : List Edge → Except RouteError (Option Hop)
  | [] => .ok none
  | edge :: rest =>
    match query.hop? edge format with
    | .ok none => query.firstHop? format rest
    | found => found

/-- The hop that leads straight from the source of the flow to its destination. -/
def directHop? (query : RouteQuery) : Except RouteError (Option Hop) :=
  query.firstHop? query.flow.inputFormat <|
    (query.snapshot.departures query.flow.source).filter (·.destination = query.flow.destination)

/-- The first end of the flow that is no node of the snapshot. -/
def unknownEndpoint? (query : RouteQuery) : Option String :=
  [query.flow.source, query.flow.destination].find? (!query.snapshot.nodes.contains ·)

/-- The error of a flow that no route serves. -/
def noRoute (query : RouteQuery) : RouteError :=
  .noRoute query.flow.source query.flow.destination

/-- The hops of the route that is taken for the flow. -/
def findRoute (query : RouteQuery) : Except RouteError (List Hop) :=
  match query.unknownEndpoint? with
  | some id => .error (.unknownEndpoint id)
  | none =>
    if query.flow.source = query.flow.destination then .error query.noRoute
    else match query.directHop? with
      | .error cause => .error cause
      | .ok (some hop) => .ok [hop]
      | .ok none =>
        match query.search query.snapshot.nodeCount query.flow.source query.flow.inputFormat
            (.start query.flow.source) with
        | .error cause => .error cause
        | .ok (true, trail) => .ok trail.hops
        | .ok (false, _) => .error query.noRoute

end RouteQuery

end HopRouting
