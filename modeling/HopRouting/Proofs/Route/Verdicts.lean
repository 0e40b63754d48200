import HopRouting.Proofs.Route.FirstRoute

/-!
# What route search answers

A flow is answered in one of five ways, and `RouteQuery.Verdict` says what each of them means for
the routes of the snapshot: an end of the flow is unknown, both ends are the same, a template lookup
failed, the first route was found, or there is no route.  `findRoute_verdict` shows that the answer
of the search always has its meaning.

The search looks at direct hops before it looks at anything else, and it stops after as many hops
as there are nodes.  Neither hides a route: a direct hop is a route of its own, and no route is as
long as the number of nodes.
-/

namespace HopRouting

theorem exists_of_firstFound_error
    {α β ε : Type}
    {attempt : α → Except ε (Option β)}
    {items : List α} {cause : ε}
    (hfailed : firstFound attempt items = .error cause) :
    ∃ item ∈ items, attempt item = .error cause := by
  induction items with
  | nil =>
      cases hfailed
  | cons item rest ih =>
      unfold firstFound at hfailed
      split at hfailed
      · obtain ⟨other, hother, hcause⟩ := ih hfailed
        exact ⟨other, List.mem_cons_of_mem _ hother, hcause⟩
      · exact ⟨item, List.mem_cons_self, hfailed⟩

theorem firstFound_map
    {α β γ ε : Type}
    (turn : β → γ)
    (attempt : α → Except ε (Option β))
    (items : List α) :
    firstFound (fun item => (attempt item).map (Option.map turn)) items =
      (firstFound attempt items).map (Option.map turn) := by
  induction items with
  | nil =>
      rfl
  | cons item rest ih =>
      unfold firstFound
      cases attempt item with
      | error cause =>
          rfl
      | ok found =>
          cases found with
          | none =>
              exact ih
          | some value =>
              rfl

namespace RouteQuery

/-- The error tells that a template lookup failed, otherwise than by not finding the template. -/
def LookupFails (query : RouteQuery) (error : RouteError) : Prop :=
  ∃ uri cause, query.catalog uri = .error cause ∧
    (∀ missing, cause ≠ .notFound missing) ∧ error = .template cause

/-- The route is taken for the flow: the direct hop with the smallest edge id, or else the first of
all routes. -/
structure IsFirstRoute (query : RouteQuery) (route : List Hop) : Prop where
  isRoute : query.IsRoute route
  direct :
    ∀ hop, query.IsDirect hop →
      ∃ chosen, route = [chosen] ∧ (hop = chosen ∨ chosen.edge.id < hop.edge.id)
  first :
    (∀ hop, ¬ query.IsDirect hop) →
      ∀ other, query.IsRoute other → other = route ∨ Precedes route other

/-- What an answer of the search means. -/
inductive Verdict (query : RouteQuery) : Except RouteError (List Hop) → Prop
  | unknown {id : String}
      (hunknown : query.unknownEndpoint? = some id) :
      Verdict query (.error (.unknownEndpoint id))
  | sameEnds
      (hknown : query.unknownEndpoint? = none)
      (hsame : query.flow.source = query.flow.destination) :
      Verdict query (.error query.noRoute)
  | lookupFailed {error : RouteError}
      (hknown : query.unknownEndpoint? = none)
      (hfails : query.LookupFails error) :
      Verdict query (.error error)
  | found {route : List Hop}
      (hknown : query.unknownEndpoint? = none)
      (hne : query.flow.source ≠ query.flow.destination)
      (hfirst : query.IsFirstRoute route) :
      Verdict query (.ok route)
  | absent
      (hknown : query.unknownEndpoint? = none)
      (hnone : ∀ route, ¬ query.IsRoute route) :
      Verdict query (.error query.noRoute)

section Endpoints

variable {query : RouteQuery}

theorem unknownEndpoint?_eq_some_iff
    {id : String} :
    query.unknownEndpoint? = some id ↔
      (query.flow.source ∉ query.snapshot.nodes ∧ id = query.flow.source) ∨
      (query.flow.source ∈ query.snapshot.nodes ∧
        query.flow.destination ∉ query.snapshot.nodes ∧ id = query.flow.destination) := by
  unfold unknownEndpoint?
  rw [← Std.ExtTreeMap.contains_iff_mem, ← Std.ExtTreeMap.contains_iff_mem, eq_comm (a := id),
    eq_comm (a := id)]
  cases hsource : query.snapshot.nodes.contains query.flow.source with
  | false =>
      simp [hsource]
  | true =>
      cases hdestination : query.snapshot.nodes.contains query.flow.destination with
      | false =>
          simp [hsource, hdestination]
      | true =>
          simp [hsource, hdestination]

theorem unknownEndpoint?_eq_none_iff :
    query.unknownEndpoint? = none ↔
      query.flow.source ∈ query.snapshot.nodes ∧
      query.flow.destination ∈ query.snapshot.nodes := by
  simp [unknownEndpoint?]

end Endpoints

section Failures

variable {query : RouteQuery}

theorem hop?_error
    {edge : Edge} {format : String} {error : RouteError}
    (hfailed : query.hop? edge format = .error error) :
    query.LookupFails error := by
  unfold hop? at hfailed
  split at hfailed
  · cases hfailed
  · split at hfailed
    · cases hfailed
    · cases hfailed
    · next cause hcause hlookup =>
        cases hfailed
        refine ⟨edge.templateUri, cause, hlookup, ?_, rfl⟩
        intro missing hmissing
        exact hcause missing hmissing

theorem complete?_error
    {budget : Nat} {visited : Std.ExtTreeSet String} {id format : String} {error : RouteError}
    (hfailed : query.complete? budget visited id format = .error error) :
    query.LookupFails error := by
  induction budget generalizing visited id format with
  | zero =>
      cases hfailed
  | succ budget ih =>
      obtain ⟨edge, -, hattempt⟩ := exists_of_firstFound_error hfailed
      unfold attempt? at hattempt
      split at hattempt
      · cases hattempt
      · split at hattempt
        · next cause hhop =>
            cases hattempt
            exact hop?_error hhop
        · cases hattempt
        · next hop hhop =>
            split at hattempt
            · cases hattempt
            · cases honward : query.complete? budget (visited.insert edge.destination)
                  edge.destination hop.outputFormat with
              | error cause =>
                  rw [honward] at hattempt
                  cases hattempt
                  exact ih honward
              | ok answer =>
                  rw [honward] at hattempt
                  cases hattempt

end Failures

section Direct

variable {query : RouteQuery}

theorem firstHop?_eq
    (format : String)
    (edges : List Edge) :
    query.firstHop? format edges = firstFound (fun edge => query.hop? edge format) edges := by
  induction edges with
  | nil =>
      rfl
  | cons edge rest ih =>
      unfold firstHop? firstFound
      cases query.hop? edge format with
      | error cause =>
          rfl
      | ok found =>
          cases found with
          | none =>
              exact ih
          | some hop =>
              rfl

theorem directHop?_error
    {error : RouteError}
    (hfailed : query.directHop? = .error error) :
    query.LookupFails error := by
  unfold directHop? at hfailed
  rw [firstHop?_eq] at hfailed
  obtain ⟨edge, -, hhop⟩ := exists_of_firstFound_error hfailed
  exact hop?_error hhop

/-- What is found over one edge between the ends of the flow is the direct hop over it, if there is
one. -/
theorem firstAmong_straight
    (hwf : query.snapshot.WellFormed)
    {edge : Edge}
    (hedge : query.snapshot.HasEdge edge)
    (hsource : edge.source = query.flow.source)
    (hdestination : edge.destination = query.flow.destination)
    {answer : Option (List Hop)}
    (hanswer :
      (query.hop? edge query.flow.inputFormat).map (Option.map fun hop => [hop]) =
        .ok answer) :
    FirstAmong
      (fun hops => (∃ hop, hops = [hop] ∧ query.IsDirect hop) ∧ StartsOver edge hops) answer := by
  cases hhop : query.hop? edge query.flow.inputFormat with
  | error cause =>
      rw [hhop] at hanswer
      cases hanswer
  | ok found =>
      rw [hhop] at hanswer
      cases found with
      | none =>
          cases hanswer
          rintro other ⟨⟨hop, rfl, hdirect⟩, hop', rest, hother, rfl⟩
          obtain ⟨rfl, rfl⟩ := List.cons.inj hother
          exact not_usable_of_hop?_eq_none hwf hhop hdirect.usable
      | some hop =>
          cases hanswer
          obtain ⟨rfl, husable⟩ := (hop?_eq_some_iff hwf).mp hhop
          have hdirect : query.IsDirect hop := ⟨hedge, hsource, hdestination, husable⟩
          refine ⟨⟨⟨hop, rfl, hdirect⟩, hop, [], rfl, rfl⟩, ?_⟩
          rintro other ⟨⟨hop', rfl, hdirect'⟩, hop'', rest, hother, hsame⟩
          obtain ⟨rfl, rfl⟩ := List.cons.inj hother
          rw [hdirect'.usable.eq_of_edge_eq hwf husable hsame]
          exact Or.inl rfl

theorem firstAmong_directHop?
    (hwf : query.snapshot.WellFormed)
    {direct : Option Hop}
    (hdirect : query.directHop? = .ok direct) :
    FirstAmong (fun hops => ∃ hop, hops = [hop] ∧ query.IsDirect hop) (direct.map ([·])) := by
  have hstraight :
      ∀ edge, edge ∈ (query.snapshot.departures query.flow.source).filter
            (fun edge => edge.destination = query.flow.destination) ↔
          (query.snapshot.HasEdge edge ∧ edge.source = query.flow.source) ∧
            edge.destination = query.flow.destination := by
    intro edge
    rw [List.mem_filter, hwf.mem_departures_iff, decide_eq_true_eq]
  have hfound := firstFound_map (fun hop => [hop])
    (fun edge => query.hop? edge query.flow.inputFormat)
    ((query.snapshot.departures query.flow.source).filter
      (fun edge => edge.destination = query.flow.destination))
  unfold directHop? at hdirect
  rw [firstHop?_eq] at hdirect
  rw [hdirect] at hfound
  have hsorted := (hwf.sorted query.flow.source).filter
    (fun edge => edge.destination = query.flow.destination)
  have hfirst :
      FirstAmong
        (fun hops =>
          (∃ hop, hops = [hop] ∧ query.IsDirect hop) ∧
            ∃ edge ∈ (query.snapshot.departures query.flow.source).filter
              (fun edge => edge.destination = query.flow.destination), StartsOver edge hops)
        (direct.map ([·])) := by
    apply firstAmong_of_firstFound hsorted _ hfound
    intro edge hedge answer hanswer
    obtain ⟨⟨hheld, hsource⟩, hdestination⟩ := (hstraight edge).mp hedge
    exact firstAmong_straight hwf hheld hsource hdestination hanswer
  apply hfirst.congr
  intro hops
  constructor
  · rintro ⟨hwanted, -⟩
    exact hwanted
  · rintro ⟨hop, rfl, hhop⟩
    exact ⟨⟨hop, rfl, hhop⟩, hop.edge,
      (hstraight hop.edge).mpr ⟨⟨hhop.edge, hhop.source⟩, hhop.destination⟩, hop, [], rfl, rfl⟩

end Direct

section Search

variable {query : RouteQuery}

/-- Without a trail to start with, the search gives the first of all routes: its bound on the number
of hops is never in the way. -/
theorem firstAmong_search
    (hwf : query.snapshot.WellFormed)
    (hsource : query.flow.source ∈ query.snapshot.nodes)
    (hne : query.flow.source ≠ query.flow.destination)
    {found : Bool} {trail : Trail}
    (hsearch :
      query.search query.snapshot.nodeCount query.flow.source query.flow.inputFormat
        (.start query.flow.source) = .ok (found, trail)) :
    FirstAmong query.IsRoute (if found then some trail.hops else none) := by
  rw [search_eq] at hsearch
  cases hcomplete : query.complete? query.snapshot.nodeCount
      (Trail.start query.flow.source).visited query.flow.source query.flow.inputFormat with
  | error cause =>
      rw [hcomplete] at hsearch
      cases hsearch
  | ok answer =>
      rw [hcomplete] at hsearch
      have hanswer : (if found then some trail.hops else none) = answer := by
        cases answer with
        | none =>
            cases hsearch
            rfl
        | some route =>
            cases hsearch
            simp [Trail.hops_follow, Trail.start]
      rw [hanswer]
      apply (firstAmong_complete? hwf hcomplete).congr
      intro route
      rw [← isRoute_iff_completes hne]
      constructor
      · rintro ⟨hroute, -⟩
        exact hroute
      · intro hroute
        have hlength := hroute.length_lt hsource
        exact ⟨hroute, by omega⟩

theorem search_error
    {budget : Nat} {id format : String} {trail : Trail} {error : RouteError}
    (hfailed : query.search budget id format trail = .error error) :
    query.LookupFails error := by
  rw [search_eq] at hfailed
  cases hcomplete : query.complete? budget trail.visited id format with
  | error cause =>
      rw [hcomplete] at hfailed
      cases hfailed
      exact complete?_error hcomplete
  | ok answer =>
      rw [hcomplete] at hfailed
      cases hfailed

end Search

theorem findRoute_verdict
    (query : RouteQuery)
    (hwf : query.snapshot.WellFormed) :
    query.Verdict query.findRoute := by
  unfold findRoute
  cases hends : query.unknownEndpoint? with
  | some id =>
      exact .unknown hends
  | none =>
      by_cases hsame : query.flow.source = query.flow.destination
      · simp only [hsame, if_true]
        exact .sameEnds hends hsame
      · simp only [hsame, if_false]
        cases hdirect : query.directHop? with
        | error cause =>
            exact .lookupFailed hends (directHop?_error hdirect)
        | ok direct =>
            have hfirst := firstAmong_directHop? hwf hdirect
            cases direct with
            | some chosen =>
                obtain ⟨⟨hop, hchosen, hdirect⟩, hleast⟩ := hfirst
                obtain rfl := List.head_eq_of_cons_eq hchosen
                refine .found hends hsame
                  { isRoute := (isDirect_iff_isRoute hsame).mp hdirect
                    direct := ?_
                    first := fun hnone => absurd hdirect (hnone chosen) }
                intro other hother
                refine ⟨chosen, rfl, ?_⟩
                rcases hleast [other] ⟨other, rfl, hother⟩ with hequal | hprecedes
                · exact Or.inl (List.head_eq_of_cons_eq hequal)
                · exact Or.inr (precedes_singleton_iff.mp hprecedes)
            | none =>
                cases hsearch : query.search query.snapshot.nodeCount query.flow.source
                    query.flow.inputFormat (.start query.flow.source) with
                | error cause =>
                    exact .lookupFailed hends (search_error hsearch)
                | ok result =>
                    have hsource := (unknownEndpoint?_eq_none_iff.mp hends).1
                    have hroutes := firstAmong_search hwf hsource hsame hsearch
                    obtain ⟨found, trail⟩ := result
                    cases found with
                    | false =>
                        exact .absent hends hroutes
                    | true =>
                        have hnodirect : ∀ hop, ¬ query.IsDirect hop :=
                          fun hop hhop => hfirst [hop] ⟨hop, rfl, hhop⟩
                        exact .found hends hsame
                          { isRoute := hroutes.1
                            direct := fun hop hhop => absurd hhop (hnodirect hop)
                            first := fun _ => hroutes.2 }

/-- Where no lookup fails, the nodes and the routes decide between three kinds of answers. -/
theorem findRoute_eq_iff
    (query : RouteQuery)
    (hwf : query.snapshot.WellFormed)
    (hlookups : ∀ error, ¬ query.LookupFails error) :
    (∀ id,
      query.findRoute = .error (.unknownEndpoint id) ↔ query.unknownEndpoint? = some id) ∧
    ((∃ route, query.findRoute = .ok route) ↔
      query.unknownEndpoint? = none ∧
        query.flow.source ≠ query.flow.destination ∧ ∃ route, query.IsRoute route) ∧
    (query.findRoute = .error query.noRoute ↔
      query.unknownEndpoint? = none ∧
        ¬ (query.flow.source ≠ query.flow.destination ∧ ∃ route, query.IsRoute route)) := by
  have hverdict := query.findRoute_verdict hwf
  generalize query.findRoute = answer at hverdict ⊢
  cases hverdict with
  | unknown hunknown =>
      simp [hunknown, noRoute]
  | sameEnds hknown hsame =>
      simp [hknown, hsame, noRoute]
  | lookupFailed hknown hfails =>
      exact absurd hfails (hlookups _)
  | @found route hknown hne hfirst =>
      have hroutes : ∃ route, query.IsRoute route := ⟨route, hfirst.isRoute⟩
      simp [hknown, hne, hroutes]
  | absent hknown hnone =>
      have hroutes : ¬ ∃ route, query.IsRoute route := by
        rintro ⟨route, hroute⟩
        exact hnone route hroute
      simp [hknown, hroutes, noRoute]

end RouteQuery

end HopRouting
