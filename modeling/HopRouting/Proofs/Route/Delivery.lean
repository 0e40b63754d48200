import HopRouting.Proofs.Route.Correctness

/-!
# The format that is delivered

`formatAfter` follows the data along the entries of a plan, by the templates that the entries name.
At its destination a flow asks for a format, and the search compares that with what the template of
the last hop declares to write.

**Result.**  A template may declare `*`, which agrees with any format asked for but leaves the data
in the format in which it arrived.  `delivered_format` shows that this is the only way in which a
plan delivers another format than the one asked for; `not_delivers_requested_format` shows that it
happens.
-/

namespace HopRouting

/-- The format of data after the entries of a plan. -/
def formatAfter (catalog : Catalog) : String → List PlannedJob → Except CatalogError String
  | format, [] => .ok format
  | format, entry :: rest =>
      match catalog entry.job.templateUri with
      | .error cause => .error cause
      | .ok template => formatAfter catalog (template.outputFormat format) rest

section Delivery

variable {catalog : Catalog}

theorem formatAfter_cons
    {format : String} {entry : PlannedJob} {template : Template}
    (htemplate : catalog entry.job.templateUri = .ok template)
    (rest : List PlannedJob) :
    formatAfter catalog format (entry :: rest) =
      formatAfter catalog (template.outputFormat format) rest := by
  simp only [formatAfter, htemplate]

theorem formatAfter_append_singleton
    {format arriving : String}
    {earlier : List PlannedJob}
    {last : PlannedJob} {template : Template}
    (hearlier : formatAfter catalog format earlier = .ok arriving)
    (htemplate : catalog last.job.templateUri = .ok template) :
    formatAfter catalog format (earlier ++ [last]) = .ok (template.outputFormat arriving) := by
  induction earlier generalizing format with
  | nil =>
      cases hearlier
      rw [List.nil_append, formatAfter_cons htemplate, formatAfter]
  | cons entry rest ih =>
      rw [List.cons_append]
      simp only [formatAfter] at hearlier ⊢
      split at hearlier
      · cases hearlier
      · exact ih hearlier

theorem RouteQuery.Usable.agree_output
    {query : RouteQuery} {format : String} {hop : Hop}
    (husable : query.Usable format hop) :
    Dataset.agree hop.template.output.format (query.formatAskedAt hop.edge.destination) = true := by
  obtain ⟨source, destination, hfits⟩ := husable
  have hsupported := hfits.supported
  simp only [Template.supportsHop, Dataset.isCompatible, Bool.and_eq_true] at hsupported
  exact hsupported.2.2

/-- Entries that serve hops end with one for the last hop; the entries before it bring the data into
the format in which that hop is usable. -/
theorem RouteQuery.Leads.exists_last
    {query : RouteQuery}
    {id format finish : String} {hops : List Hop}
    (hleads : query.Leads id format hops finish)
    (hne : hops ≠ [])
    {entries : List PlannedJob}
    (hserves : List.Forall₂ query.flow.Serves entries hops) :
    ∃ earlier last hop arriving,
      entries = earlier ++ [last] ∧
      query.flow.Serves last hop ∧
      hop.edge.destination = finish ∧
      query.Usable arriving hop ∧
      formatAfter query.catalog format earlier = .ok arriving := by
  induction hleads generalizing entries with
  | here =>
      exact absurd rfl hne
  | @step id format finish hop rest hedge hsource husable hrest ih =>
      cases hserves with
      | @cons entry _ entries _ hentry hentries =>
          cases rest with
          | nil =>
              cases hentries
              exact ⟨[], entry, hop, format, rfl, hentry, RouteQuery.leads_nil_iff.mp hrest,
                husable, rfl⟩
          | cons next rest =>
              obtain ⟨earlier, last, lastHop, arriving, rfl, hlast, hfinish, harrives, hformat⟩ :=
                ih (List.cons_ne_nil next rest) hentries
              refine ⟨entry :: earlier, last, lastHop, arriving, rfl, hlast, hfinish, harrives, ?_⟩
              obtain ⟨source, destination, hfits⟩ := husable
              have htemplate := hfits.template_found
              rw [← hentry.templateUri] at htemplate
              rw [formatAfter_cons htemplate]
              rw [hfits.format_after] at hformat
              exact hformat

variable {graph : Graph} {flow : Flow} {plan : Plan}

/-- The format that a plan delivers is that declared by the last template, which agrees with the
format asked for; only where it is `*` the format in which data arrives is delivered instead, and
nothing makes that agree. -/
theorem delivered_format
    (hreach : graph.Reachable)
    (hplan : (graph.query catalog flow).findPlan = .ok plan) :
    ∃ earlier last template arriving,
      plan.values = earlier ++ [last] ∧
      catalog last.job.templateUri = .ok template ∧
      formatAfter catalog flow.inputFormat earlier = .ok arriving ∧
      formatAfter catalog flow.inputFormat plan.values =
        .ok (template.outputFormat arriving) ∧
      (Dataset.agree (template.outputFormat arriving) flow.outputFormat = true ↔
        (template.output.format = Key.any →
          Dataset.agree arriving flow.outputFormat = true)) := by
  obtain ⟨route, hserves, hfirst, -, hne⟩ := exists_firstRoute hreach hplan
  have hleads := hfirst.isRoute.leads
  have hsome : route ≠ [] := by
    rintro rfl
    exact hne (RouteQuery.leads_nil_iff.mp hleads)
  obtain ⟨earlier, last, hop, arriving, hsplit, hlast, hfinish, husable, hearlier⟩ :=
    hleads.exists_last hsome hserves
  have hdeclared := husable.agree_output
  obtain ⟨source, destination, hfits⟩ := husable
  have htemplate := hfits.template_found
  rw [← hlast.templateUri] at htemplate
  refine ⟨earlier, last, hop.template, arriving, hsplit, htemplate, hearlier, ?_, ?_⟩
  · rw [hsplit]
    exact formatAfter_append_singleton hearlier htemplate
  · rw [hfinish, RouteQuery.formatAskedAt, if_pos rfl] at hdeclared
    unfold Template.outputFormat
    by_cases hany : hop.template.output.format = Key.any
    · simp [hany]
    · simp only [hany, if_false, false_implies, iff_true]
      exact hdeclared

theorem delivered_format_relay :
    formatAfter relayCatalog "avro" (relayFlow.planOfRoute relayRoute).values = .ok "avro" ∧
    ∃ earlier last template arriving,
      (relayFlow.planOfRoute relayRoute).values = earlier ++ [last] ∧
      relayCatalog last.job.templateUri = .ok template ∧
      formatAfter relayCatalog "avro" earlier = .ok arriving ∧
      (Dataset.agree (template.outputFormat arriving) "orc" = true ↔
        (template.output.format = Key.any → Dataset.agree arriving "orc" = true)) := by
  obtain ⟨earlier, last, template, arriving, hsplit, htemplate, hearlier, -, hagree⟩ :=
    delivered_format reachable_relayGraph findPlan_relay
  exact ⟨rfl, earlier, last, template, arriving, hsplit, htemplate, hearlier, hagree⟩

/-- Not every plan delivers a format that agrees with the one asked for. -/
theorem not_delivers_requested_format :
    ¬ ∀ (graph : Graph) (catalog : Catalog) (flow : Flow) (plan : Plan),
      graph.Reachable →
      (graph.query catalog flow).findPlan = .ok plan →
      ∃ delivered,
        formatAfter catalog flow.inputFormat plan.values = .ok delivered ∧
        Dataset.agree delivered flow.outputFormat = true := by
  intro halways
  obtain ⟨delivered, hdelivered, hagree⟩ :=
    halways relayGraph relayCatalog relayFlow _ reachable_relayGraph findPlan_relay
  have havro :
      formatAfter relayCatalog relayFlow.inputFormat
          (relayFlow.planOfRoute relayRoute).values = .ok "avro" := by
    rfl
  rw [havro] at hdelivered
  cases hdelivered
  revert hagree
  decide

end Delivery

end HopRouting
