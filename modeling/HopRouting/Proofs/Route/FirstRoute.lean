import Mathlib.Data.List.Lex
import HopRouting.Proofs.Route.Backtracking

/-!
# The first route

Lists of hops are ordered by the ids of their edges, hop by hop.  This module shows that the search
answers the first of all the lists it is after, and that it answers none only when there is none.

**Completions.**  `RouteQuery.Completes` follows the recursion of the search: it says which lists of
hops lead on from a node to the destination of the flow past the nodes visited.
`completes_iff` reads it back as usable hops that enter new nodes only, each of them once.

**Firsts.**  `FirstAmong` says of an answer that it is the first of the wanted lists of hops, or
that there is no wanted list.  An attempt over one edge gives the first completion over that edge;
as edges are tried by increasing id, the first attempt that gives a completion gives the first of
all.
-/

namespace HopRouting

/-- The ids of the edges of the hops come before those of the other hops, compared one by one. -/
def Precedes (hops other : List Hop) : Prop :=
  List.Lex (fun id later => id < later) (RouteQuery.edgeIds hops) (RouteQuery.edgeIds other)

/-- The answer is the first of the wanted lists of hops, if there are any. -/
def FirstAmong (wanted : List Hop → Prop) : Option (List Hop) → Prop
  | none => ∀ other, ¬ wanted other
  | some hops => wanted hops ∧ ∀ other, wanted other → other = hops ∨ Precedes hops other

/-- The first of the hops goes over the edge. -/
def StartsOver (edge : Edge) (hops : List Hop) : Prop :=
  ∃ hop rest, hops = hop :: rest ∧ hop.edge = edge

theorem FirstAmong.congr
    {wanted wanted' : List Hop → Prop}
    {answer : Option (List Hop)}
    (hfirst : FirstAmong wanted answer)
    (hiff : ∀ hops, wanted hops ↔ wanted' hops) :
    FirstAmong wanted' answer := by
  have hwanted : wanted = wanted' := by
    funext hops
    exact propext (hiff hops)
  rwa [← hwanted]

theorem Precedes.of_startsOver
    {edge later : Edge} {hops other : List Hop}
    (hlt : edge.id < later.id)
    (hhops : StartsOver edge hops)
    (hother : StartsOver later other) :
    Precedes hops other := by
  obtain ⟨hop, rest, rfl, rfl⟩ := hhops
  obtain ⟨hop', rest', rfl, rfl⟩ := hother
  exact List.Lex.rel hlt

theorem Precedes.cons
    {hops other : List Hop}
    (hprecedes : Precedes hops other)
    (hop : Hop) :
    Precedes (hop :: hops) (hop :: other) := by
  exact List.Lex.cons hprecedes

theorem precedes_singleton_iff
    {hop other : Hop} :
    Precedes [hop] [other] ↔ hop.edge.id < other.edge.id := by
  unfold Precedes RouteQuery.edgeIds
  rw [List.map_singleton, List.map_singleton]
  exact List.lex_singleton_iff _ _

/-- If edges are tried by increasing id, and each attempt gives the first wanted list of hops over
its edge, then what is found is the first wanted list over any of them. -/
theorem firstAmong_of_firstFound
    {found : Edge → Except RouteError (Option (List Hop))}
    {wanted : List Hop → Prop}
    {edges : List Edge}
    (hsorted : edges.Pairwise (fun edge later => edge.id < later.id))
    (heach :
      ∀ edge ∈ edges, ∀ answer, found edge = .ok answer →
        FirstAmong (fun hops => wanted hops ∧ StartsOver edge hops) answer)
    {answer : Option (List Hop)}
    (hanswer : firstFound found edges = .ok answer) :
    FirstAmong (fun hops => wanted hops ∧ ∃ edge ∈ edges, StartsOver edge hops) answer := by
  induction edges with
  | nil =>
      cases hanswer
      rintro other ⟨-, edge, hedge, -⟩
      cases hedge
  | cons edge rest ih =>
      rw [List.pairwise_cons] at hsorted
      have hhead := heach edge List.mem_cons_self
      unfold firstFound at hanswer
      split at hanswer
      · next hnone =>
          have habsent := hhead none hnone
          have hrest := ih hsorted.2
            (fun later hlater => heach later (List.mem_cons_of_mem _ hlater)) hanswer
          apply hrest.congr
          intro hops
          constructor
          · rintro ⟨hwanted, later, hlater, hstarts⟩
            exact ⟨hwanted, later, List.mem_cons_of_mem _ hlater, hstarts⟩
          · rintro ⟨hwanted, later, hlater, hstarts⟩
            rcases List.mem_cons.mp hlater with rfl | hlater
            · exact absurd ⟨hwanted, hstarts⟩ (habsent hops)
            · exact ⟨hwanted, later, hlater, hstarts⟩
      · next hsome =>
          cases answer with
          | none =>
              exact absurd hanswer hsome
          | some hops =>
              obtain ⟨⟨hwanted, hstarts⟩, hleast⟩ := hhead (some hops) hanswer
              refine ⟨⟨hwanted, edge, List.mem_cons_self, hstarts⟩, ?_⟩
              rintro other ⟨hother, later, hlater, hstarts'⟩
              rcases List.mem_cons.mp hlater with rfl | hlater
              · exact hleast other ⟨hother, hstarts'⟩
              · exact Or.inr (Precedes.of_startsOver (hsorted.1 later hlater) hstarts hstarts')

namespace RouteQuery

/-- Hops that lead on from a node where data is in a format to the destination of the flow, past
the nodes visited. -/
def Completes (query : RouteQuery) :
    Std.ExtTreeSet String → String → String → List Hop → Prop
  | _, _, _, [] => False
  | visited, id, format, hop :: rest =>
      (query.snapshot.HasEdge hop.edge ∧ hop.edge.source = id) ∧
      hop.edge.destination ∉ visited ∧
      query.Usable format hop ∧
      if hop.edge.destination = query.flow.destination then rest = []
      else
        query.Completes (visited.insert hop.edge.destination) hop.edge.destination
          hop.outputFormat rest

section Search

variable {query : RouteQuery}

theorem Completes.ne_nil
    {visited : Std.ExtTreeSet String} {id format : String} {hops : List Hop}
    (hcompletes : query.Completes visited id format hops) :
    hops ≠ [] := by
  rintro rfl
  exact hcompletes

/-- Completions are usable hops that enter new nodes only, each of them once. -/
theorem completes_iff
    {visited : Std.ExtTreeSet String} {id format : String} {hops : List Hop} :
    query.Completes visited id format hops ↔
      hops ≠ [] ∧
      query.Leads id format hops query.flow.destination ∧
      (entered hops).Nodup ∧
      ∀ node ∈ entered hops, node ∉ visited := by
  induction hops generalizing visited id format with
  | nil =>
      simp [Completes]
  | cons hop rest ih =>
      unfold Completes
      by_cases harrived : hop.edge.destination = query.flow.destination
      · simp only [harrived, if_true]
        constructor
        · rintro ⟨⟨hedge, hsource⟩, hnew, husable, rfl⟩
          refine ⟨List.cons_ne_nil _ _, Leads.step hedge hsource husable ?_, ?_, ?_⟩
          · rw [harrived]
            exact Leads.here
          · simp
          · intro node hnode
            have hlast : node = hop.edge.destination := by
              simpa using hnode
            rw [hlast, harrived]
            exact hnew
        · rintro ⟨-, hleads, hnodup, hnew⟩
          cases hleads with
          | step hedge hsource husable hrest =>
              rw [entered_cons, List.nodup_cons, harrived] at hnodup
              rw [harrived] at hrest
              refine ⟨⟨hedge, hsource⟩, ?_, husable, hrest.eq_nil_of_not_mem hnodup.1⟩
              rw [← harrived]
              exact hnew _ List.mem_cons_self
      · simp only [harrived, if_false]
        rw [ih]
        constructor
        · rintro ⟨⟨hedge, hsource⟩, hnew, husable, -, hrest, hnodup, hbeyond⟩
          refine ⟨List.cons_ne_nil _ _, Leads.step hedge hsource husable hrest, ?_, ?_⟩
          · rw [entered_cons, List.nodup_cons]
            refine ⟨?_, hnodup⟩
            intro hagain
            exact hbeyond _ hagain Std.ExtTreeSet.mem_insert_self
          · intro node hnode
            rcases List.mem_cons.mp hnode with rfl | hnode
            · exact hnew
            · intro hvisited
              exact hbeyond node hnode (Std.ExtTreeSet.mem_insert.mpr (Or.inr hvisited))
        · rintro ⟨-, hleads, hnodup, hnew⟩
          cases hleads with
          | step hedge hsource husable hrest =>
              rw [entered_cons, List.nodup_cons] at hnodup
              refine ⟨⟨hedge, hsource⟩, hnew _ List.mem_cons_self, husable, ?_, hrest,
                hnodup.2, ?_⟩
              · rintro rfl
                exact harrived (leads_nil_iff.mp hrest)
              · intro node hnode hinsert
                rcases Std.ExtTreeSet.mem_insert.mp hinsert with heq | hvisited
                · rw [Std.LawfulEqOrd.compare_eq_iff_eq] at heq
                  exact hnodup.1 (heq ▸ hnode)
                · exact hnew node (List.mem_cons_of_mem _ hnode) hvisited

theorem Completes.cons_of_startsOver
    (hwf : query.snapshot.WellFormed)
    {visited : Std.ExtTreeSet String} {id format : String}
    {hop : Hop} {other : List Hop}
    (husable : query.Usable format hop)
    (hother : query.Completes visited id format other)
    (hstarts : StartsOver hop.edge other) :
    ∃ rest, other = hop :: rest ∧
      if hop.edge.destination = query.flow.destination then rest = []
      else
        query.Completes (visited.insert hop.edge.destination) hop.edge.destination
          hop.outputFormat rest := by
  obtain ⟨hop', rest, rfl, hedge⟩ := hstarts
  obtain ⟨-, -, husable', hrest⟩ := hother
  obtain rfl := husable'.eq_of_edge_eq hwf husable hedge
  exact ⟨rest, rfl, hrest⟩

theorem firstAmong_arrived
    (hwf : query.snapshot.WellFormed)
    {budget : Nat} {visited : Std.ExtTreeSet String} {id format : String} {hop : Hop}
    (hleaves : query.snapshot.HasEdge hop.edge ∧ hop.edge.source = id)
    (hnew : hop.edge.destination ∉ visited)
    (husable : query.Usable format hop)
    (harrived : hop.edge.destination = query.flow.destination) :
    FirstAmong
      (fun hops =>
        (query.Completes visited id format hops ∧ hops.length ≤ budget + 1) ∧
          StartsOver hop.edge hops) (some [hop]) := by
  have hcompletes : query.Completes visited id format [hop] := by
    refine ⟨hleaves, hnew, husable, ?_⟩
    rw [if_pos harrived]
  refine ⟨⟨⟨hcompletes, by simp⟩, hop, [], rfl, rfl⟩, ?_⟩
  rintro other ⟨⟨hother, -⟩, hstarts⟩
  obtain ⟨rest, rfl, hrest⟩ := hother.cons_of_startsOver hwf husable hstarts
  rw [if_pos harrived] at hrest
  rw [hrest]
  exact Or.inl rfl

/-- Behind one hop, the first of what leads on makes the first completion. -/
theorem firstAmong_onward
    (hwf : query.snapshot.WellFormed)
    {budget : Nat} {visited : Std.ExtTreeSet String} {id format : String} {hop : Hop}
    (hleaves : query.snapshot.HasEdge hop.edge ∧ hop.edge.source = id)
    (hnew : hop.edge.destination ∉ visited)
    (husable : query.Usable format hop)
    (hfurther : hop.edge.destination ≠ query.flow.destination)
    {onward : Option (List Hop)}
    (hfirst :
      FirstAmong
        (fun rest =>
          query.Completes (visited.insert hop.edge.destination) hop.edge.destination
              hop.outputFormat rest ∧ rest.length ≤ budget) onward) :
    FirstAmong
      (fun hops =>
        (query.Completes visited id format hops ∧ hops.length ≤ budget + 1) ∧
          StartsOver hop.edge hops) (onward.map (hop :: ·)) := by
  have htail :
      ∀ other,
        (query.Completes visited id format other ∧ other.length ≤ budget + 1) ∧
            StartsOver hop.edge other →
          ∃ rest, other = hop :: rest ∧
            query.Completes (visited.insert hop.edge.destination) hop.edge.destination
              hop.outputFormat rest ∧ rest.length ≤ budget := by
    rintro other ⟨⟨hother, hlength⟩, hstarts⟩
    obtain ⟨rest, rfl, hrest⟩ := hother.cons_of_startsOver hwf husable hstarts
    rw [if_neg hfurther] at hrest
    rw [List.length_cons] at hlength
    exact ⟨rest, rfl, hrest, by omega⟩
  cases onward with
  | none =>
      intro other hother
      obtain ⟨rest, -, hrest⟩ := htail other hother
      exact hfirst rest hrest
  | some rest =>
      obtain ⟨⟨hrest, hlength⟩, hleast⟩ := hfirst
      have hcompletes : query.Completes visited id format (hop :: rest) := by
        refine ⟨hleaves, hnew, husable, ?_⟩
        rwa [if_neg hfurther]
      have hlength' : (hop :: rest).length ≤ budget + 1 := by
        rw [List.length_cons]
        omega
      refine ⟨⟨⟨hcompletes, hlength'⟩, hop, rest, rfl, rfl⟩, ?_⟩
      intro other hother
      obtain ⟨rest', rfl, hrest'⟩ := htail other hother
      rcases hleast rest' hrest' with rfl | hprecedes
      · exact Or.inl rfl
      · exact Or.inr (hprecedes.cons hop)

/-- An attempt over an edge gives the first completion over that edge, if the search beyond it
gives first completions. -/
theorem firstAmong_attempt?
    (hwf : query.snapshot.WellFormed)
    {budget : Nat}
    (honward :
      ∀ visited id format answer, query.complete? budget visited id format = .ok answer →
        FirstAmong
          (fun hops => query.Completes visited id format hops ∧ hops.length ≤ budget) answer)
    {visited : Std.ExtTreeSet String} {id format : String} {edge : Edge}
    (hedge : edge ∈ query.snapshot.departures id)
    {answer : Option (List Hop)}
    (hanswer : query.attempt? (query.complete? budget) visited format edge = .ok answer) :
    FirstAmong
      (fun hops =>
        (query.Completes visited id format hops ∧ hops.length ≤ budget + 1) ∧
          StartsOver edge hops) answer := by
  unfold attempt? at hanswer
  split at hanswer
  · next hvisited =>
      cases hanswer
      rintro other ⟨⟨hcompletes, -⟩, hop, rest, rfl, rfl⟩
      exact hcompletes.2.1 (Std.ExtTreeSet.contains_iff_mem.mp hvisited)
  · next hvisited =>
      have hnew : edge.destination ∉ visited := by
        rwa [← Std.ExtTreeSet.contains_iff_mem]
      split at hanswer
      · cases hanswer
      · next hnone =>
          cases hanswer
          rintro other ⟨⟨hcompletes, -⟩, hop, rest, rfl, rfl⟩
          exact not_usable_of_hop?_eq_none hwf hnone hcompletes.2.2.1
      · next hop hhop =>
          obtain ⟨rfl, husable⟩ := (hop?_eq_some_iff hwf).mp hhop
          have hleaves := hwf.mem_departures_iff.mp hedge
          split at hanswer
          · next harrived =>
              cases hanswer
              exact firstAmong_arrived hwf hleaves hnew husable harrived
          · next hfurther =>
              cases hrec : query.complete? budget (visited.insert hop.edge.destination)
                  hop.edge.destination hop.outputFormat with
              | error cause =>
                  rw [hrec] at hanswer
                  cases hanswer
              | ok found =>
                  rw [hrec] at hanswer
                  cases hanswer
                  have hfirst := honward _ _ _ _ hrec
                  exact firstAmong_onward hwf hleaves hnew husable hfurther hfirst

theorem firstAmong_complete?
    (hwf : query.snapshot.WellFormed)
    {budget : Nat} {visited : Std.ExtTreeSet String} {id format : String}
    {answer : Option (List Hop)}
    (hanswer : query.complete? budget visited id format = .ok answer) :
    FirstAmong
      (fun hops => query.Completes visited id format hops ∧ hops.length ≤ budget) answer := by
  induction budget generalizing visited id format answer with
  | zero =>
      cases hanswer
      rintro other ⟨hcompletes, hlength⟩
      exact hcompletes.ne_nil (List.length_eq_zero_iff.mp (by omega))
  | succ budget ih =>
      have hfirst :=
        firstAmong_of_firstFound (hwf.sorted id)
          (fun edge hedge answer hattempt =>
            firstAmong_attempt? hwf (fun _ _ _ _ => ih) hedge hattempt)
          hanswer
      apply hfirst.congr
      intro hops
      constructor
      · rintro ⟨hwanted, -⟩
        exact hwanted
      · intro hwanted
        refine ⟨hwanted, ?_⟩
        cases hops with
        | nil =>
            exact absurd rfl hwanted.1.ne_nil
        | cons hop rest =>
            obtain ⟨hleaves, -⟩ := hwanted.1
            exact ⟨hop.edge, hwf.mem_departures_iff.mpr hleaves, hop, rest, rfl, rfl⟩

/-- Routes are the completions from the source of the flow. -/
theorem isRoute_iff_completes
    (hne : query.flow.source ≠ query.flow.destination)
    {route : List Hop} :
    query.IsRoute route ↔
      query.Completes (Trail.start query.flow.source).visited query.flow.source
        query.flow.inputFormat route := by
  have hvisited :
      ∀ node, node ∈ (Trail.start query.flow.source).visited ↔ query.flow.source = node := by
    intro node
    simp [Trail.start]
  rw [completes_iff]
  constructor
  · rintro ⟨hleads, hsimple⟩
    rw [List.nodup_cons] at hsimple
    refine ⟨?_, hleads, hsimple.2, ?_⟩
    · rintro rfl
      exact hne (leads_nil_iff.mp hleads)
    · intro node hnode
      rw [hvisited]
      rintro rfl
      exact hsimple.1 hnode
  · rintro ⟨-, hleads, hnodup, hnew⟩
    refine ⟨hleads, List.nodup_cons.mpr ⟨?_, hnodup⟩⟩
    intro hagain
    exact hnew _ hagain ((hvisited _).mpr rfl)

end Search

end RouteQuery

end HopRouting
