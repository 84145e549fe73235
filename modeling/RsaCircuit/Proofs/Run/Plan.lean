import RsaCircuit.Proofs.Run.Trace
set_option autoImplicit false

/-!
# Plans: the steps of a run that do not depend on its data

A run *follows* a plan if its steps are the planned ones, up to the first check that fails, whatever
the data are (`Run.Follows`).  Plans add up along a sequence, so the plan of a component is put
together from the plans of its parts, and it is a function of the component's parameters alone.

A run that follows a plan ends with a result after all of its steps, or at one of its checks
(`Run.Follows.cases`).  Hence the number of a failing check tells which check it is.
-/

namespace RsaCircuit

/-- The steps that a run is going to take. -/
abbrev Plan := List Step

namespace Plan

/-- One check. -/
def check (description : String) : Plan := [.constraint ⟨[], some description⟩]

/-- The number of constraints of a plan. -/
def constraintCount (plan : Plan) : Nat := (sites plan).length

@[simp] theorem constraintCount_nil : constraintCount [] = 0 := rfl

@[simp] theorem constraintCount_check (description : String) :
    (check description).constraintCount = 1 := rfl

@[simp] theorem constraintCount_append (plan rest : Plan) :
    constraintCount (plan ++ rest) = plan.constraintCount + rest.constraintCount := by
  rw [constraintCount, sites_append, List.length_append]
  rfl

/-- The same steps for every element of a list. -/
def repeated (count : Nat) (plan : Plan) : Plan := (List.replicate count plan).flatten

theorem repeated_succ (count : Nat) (plan : Plan) :
    repeated (count + 1) plan = plan ++ repeated count plan := by
  rw [repeated, List.replicate_succ, List.flatten_cons]
  rfl

@[simp] theorem constraintCount_repeated (count : Nat) (plan : Plan) :
    (repeated count plan).constraintCount = count * plan.constraintCount := by
  induction count with
  | zero => rw [Nat.zero_mul]; rfl
  | succ count ih => rw [repeated_succ, constraintCount_append, ih, Nat.succ_mul, Nat.add_comm]

end Plan

namespace Component

variable {α β : Type}

/-- An instance under `label` that follows a plan. -/
def placePlan (component : Component α β) (plan : Plan) (label : String) : Plan :=
  .start [label] component.name :: plan.map (Step.inside label)

/-- Instances under the labels in turn. -/
def placeAllPlan (component : Component α β) (plan : Plan) (labels : List String) : Plan :=
  labels.flatMap (component.placePlan plan)

/-- The labels `label[0]`, `label[1]` and so on. -/
def labels (label : String) (count : Nat) : List String :=
  (List.range count).map fun i => s!"{label}[{i}]"

/-- Instances under numbered labels. -/
def placeEachPlan (component : Component α β) (plan : Plan) (label : String) (count : Nat) : Plan :=
  component.placeAllPlan plan (labels label count)

/-- Instances under numbered labels, the last one first. -/
def placeDownPlan (component : Component α β) (plan : Plan) (label : String) (count : Nat) : Plan :=
  component.placeAllPlan plan (labels label count).reverse

theorem length_numbered (label : String) (inputs : List α) :
    (numbered label inputs).length = inputs.length := by
  rw [numbered, List.length_map, List.length_zipIdx]

theorem map_fst_numbered (label : String) (inputs : List α) :
    (numbered label inputs).map Prod.fst = labels label inputs.length := by
  have hfun : (Prod.fst ∘ fun (p : α × Nat) => (s!"{label}[{p.2}]", p.1)) =
      (fun i => s!"{label}[{i}]") ∘ Prod.snd := rfl
  rw [numbered, List.map_map, hfun, ← List.map_map, List.zipIdx_map_snd, labels,
    List.range_eq_range']

section Counts

variable (component : Component α β) (plan : Plan) (label : String)

@[simp] theorem constraintCount_placePlan :
    (component.placePlan plan label).constraintCount = plan.constraintCount := by
  rw [placePlan, Plan.constraintCount, sites_start, length_sites_inside]
  rfl

theorem constraintCount_placeAllPlan (labels : List String) :
    (component.placeAllPlan plan labels).constraintCount = labels.length * plan.constraintCount := by
  induction labels with
  | nil => rw [List.length_nil, Nat.zero_mul]; rfl
  | cons label labels ih =>
    have hcons : component.placeAllPlan plan (label :: labels) =
        component.placePlan plan label ++ component.placeAllPlan plan labels := List.flatMap_cons
    rw [hcons, Plan.constraintCount_append, ih, constraintCount_placePlan, List.length_cons,
      Nat.succ_mul, Nat.add_comm]

@[simp] theorem constraintCount_placeEachPlan (count : Nat) :
    (component.placeEachPlan plan label count).constraintCount = count * plan.constraintCount := by
  rw [placeEachPlan, constraintCount_placeAllPlan, labels, List.length_map, List.length_range]

@[simp] theorem constraintCount_placeDownPlan (count : Nat) :
    (component.placeDownPlan plan label count).constraintCount = count * plan.constraintCount := by
  rw [placeDownPlan, constraintCount_placeAllPlan, List.length_reverse, labels, List.length_map,
    List.length_range]

end Counts

end Component

namespace Run

/-! ## Following a plan -/

/-- The run takes the planned steps up to the first check that fails.  If none fails, it ends with a
result that has the property `post`.  A run with an arithmetic error or a misuse follows no plan. -/
inductive Follows : {α : Type} → Run α → Plan → (α → Prop) → Prop where
  | done {α : Type} {value : α} {post : α → Prop} (h : post value) :
      Follows (.done value) [] post
  | check {α : Type} {lhs rhs : Scalar} {description : String} {next : Run α} {plan : Plan}
      {post : α → Prop} (h : lhs = rhs → Follows next plan post) :
      Follows (.check lhs rhs description next) (.constraint ⟨[], some description⟩ :: plan) post
  | note {α : Type} {event : InstancePath → Event} {next : Run α} {plan : Plan} {post : α → Prop}
      (h : Follows next plan post) : Follows (.note event next) plan post
  | within {α β : Type} {label name : String} {body : Run β} {next : β → Run α} {inner plan : Plan}
      {mid : β → Prop} {post : α → Prop} (hbody : Follows body inner mid)
      (hnext : ∀ value, body.outcome = .ok value → Follows (next value) plan post) :
      Follows (.within label name body next)
        (.start [label] name :: (inner.map (Step.inside label) ++ plan)) post

namespace Follows

variable {α β : Type} {run : Run α} {plan rest : Plan} {post : α → Prop}

/-- A run that follows a plan either ends with a result, after all planned steps, or fails a check,
after some of them. -/
theorem cases (h : run.Follows plan post) :
    (∃ value, run.outcome = .ok value ∧ run.trace = plan ∧ post value) ∨
      ∃ failure description lhs rhs, run.outcome = .error (.error failure) ∧
        failure.cause = .unequal description lhs rhs ∧ run.trace <+: plan := by
  induction h with
  | done h => exact Or.inl ⟨_, rfl, rfl, h⟩
  | @check α lhs rhs description next plan post h ih =>
    by_cases heq : lhs = rhs
    · rcases ih heq with ⟨value, hvalue, htrace, hpost⟩ | ⟨failure, d, l, r, hfailure, hcause, htrace⟩
      · refine Or.inl ⟨value, ?_, ?_, hpost⟩
        · rw [outcome, if_pos heq, hvalue]
        · rw [trace, if_pos heq, htrace]
      · refine Or.inr ⟨failure, d, l, r, ?_, hcause, ?_⟩
        · rw [outcome, if_pos heq, hfailure]
        · rw [trace, if_pos heq, List.cons_prefix_cons]
          exact ⟨rfl, htrace⟩
    · refine Or.inr ⟨⟨[], .unequal description lhs rhs⟩, description, lhs, rhs, ?_, rfl, ?_⟩
      · rw [outcome, if_neg heq]
      · rw [trace, if_neg heq, List.cons_prefix_cons]
        exact ⟨rfl, List.nil_prefix⟩
  | note h ih => exact ih
  | @within α β label name body next inner plan mid post hbody hnext ihb ih =>
    rcases ihb with ⟨value, hvalue, htrace, _⟩ | ⟨failure, d, l, r, hfailure, hcause, htrace⟩
    · rcases ih value hvalue with
        ⟨result, hresult, hrest, hpost⟩ | ⟨failure, d, l, r, hfailure, hcause, hrest⟩
      · refine Or.inl ⟨result, ?_, ?_, hpost⟩
        · rw [outcome, hvalue]
          exact hresult
        · rw [trace, hvalue, htrace]
          exact congrArg _ (congrArg _ hrest)
      · refine Or.inr ⟨failure, d, l, r, ?_, hcause, ?_⟩
        · rw [outcome, hvalue]
          exact hfailure
        · rw [trace, hvalue, htrace, List.cons_prefix_cons, List.prefix_append_right_inj]
          exact ⟨rfl, hrest⟩
    · refine Or.inr ⟨failure.inside label, d, l, r, ?_, hcause, ?_⟩
      · rw [outcome, hfailure]
        rfl
      · rw [trace, hfailure, List.cons_prefix_cons, List.append_nil]
        exact ⟨rfl, (htrace.map _).trans (List.prefix_append _ _)⟩

theorem of_ok (h : run.Follows plan post) {value : α} (hok : run.outcome = .ok value) :
    post value := by
  rcases h.cases with ⟨value', hvalue, _, hpost⟩ | ⟨failure, _, _, _, hfailure, _, _⟩
  · obtain rfl := Except.ok.inj (hok.symm.trans hvalue)
    exact hpost
  · cases hok.symm.trans hfailure

theorem trace_eq_of_ok (h : run.Follows plan post) {value : α} (hok : run.outcome = .ok value) :
    run.trace = plan := by
  rcases h.cases with ⟨_, _, htrace, _⟩ | ⟨failure, _, _, _, hfailure, _, _⟩
  · exact htrace
  · cases hok.symm.trans hfailure

/-! ## Rules -/

/-- What holds of the result may rest on the run having that result. -/
theorem weaken_of_ok {post' : α → Prop} (h : run.Follows plan post)
    (hpost : ∀ value, run.outcome = .ok value → post value → post' value) :
    run.Follows plan post' := by
  induction h with
  | done h => exact .done (hpost _ rfl h)
  | @check α lhs rhs description next plan post h ih =>
    refine .check fun heq => ih heq fun value hvalue => hpost value ?_
    rw [outcome, if_pos heq, hvalue]
  | note h ih => exact .note (ih hpost)
  | within hbody hnext _ ih =>
    refine .within hbody fun value hvalue => ih value hvalue fun result hresult => hpost result ?_
    rw [outcome, hvalue]
    exact hresult

theorem weaken {post' : α → Prop} (h : run.Follows plan post)
    (hpost : ∀ value, post value → post' value) : run.Follows plan post' :=
  h.weaken_of_ok fun value _ => hpost value

/-- What a run decides holds of its result beside what its plan says. -/
theorem and_decides {cond : Prop} {post' : α → Prop} (h : run.Follows plan post)
    (hd : run.Decides cond post') :
    run.Follows plan fun value => post value ∧ cond ∧ post' value :=
  h.weaken_of_ok fun _ hok hpost => ⟨hpost, hd.of_ok hok⟩

/-- Along a sequence plans add up. -/
theorem bind {f : α → Run β} {post' : β → Prop} (h : run.Follows plan post)
    (hf : ∀ value, post value → (f value).Follows rest post') :
    (run >>= f).Follows (plan ++ rest) post' := by
  change (run.bind f).Follows _ _
  induction h with
  | done h => exact hf _ h
  | check h ih => exact .check fun heq => ih heq hf
  | note h ih => exact .note (ih hf)
  | within hbody hnext _ ih =>
    rw [List.cons_append, List.append_assoc]
    exact .within hbody fun value hvalue => ih value hvalue hf

/-- A first part without steps. -/
theorem nil_bind {f : α → Run β} {post' : β → Prop} (h : run.Follows [] post)
    (hf : ∀ value, post value → (f value).Follows rest post') :
    (run >>= f).Follows rest post' := h.bind hf

/-- A last part without steps. -/
theorem bind_done {f : α → Run β} {post' : β → Prop} (h : run.Follows plan post)
    (hf : ∀ value, post value → (f value).Follows [] post') :
    (run >>= f).Follows plan post' := by
  rw [← List.append_nil plan]
  exact h.bind hf

theorem assertEqual {lhs rhs : Scalar} {description : String} :
    (Run.assertEqual lhs rhs description).Follows (Plan.check description) fun _ => lhs = rhs :=
  .check fun heq => .done heq

/-- The same check for each element. -/
theorem each {γ : Type} {f : γ → Run Unit} {lhs rhs : γ → Scalar} {description : String}
    (hf : ∀ x, f x = Run.assertEqual (lhs x) (rhs x) description) (xs : List γ) :
    (Run.each f xs).Follows (Plan.repeated xs.length (Plan.check description)) fun _ => True := by
  induction xs with
  | nil => exact .done trivial
  | cons x xs ih =>
    have hhead : (f x).Follows (Plan.check description) fun _ => lhs x = rhs x := by
      rw [hf]
      exact assertEqual
    rw [List.length_cons, Plan.repeated_succ]
    exact hhead.bind fun _ _ => ih

theorem reports (events : List Event) :
    (Run.each report events).Follows [] fun _ => True := by
  induction events with
  | nil => exact .done trivial
  | cons event events ih => exact .note ih

theorem ofArithmetic {result : Except (Stop ArithmeticError) α} {value : α}
    (h : (Run.ofArithmetic result).outcome = .ok value) :
    (Run.ofArithmetic result).Follows [] fun v => v = value := by
  cases result with
  | ok value' => exact .done (Except.ok.inj h)
  | error stop => cases stop <;> cases h

section Components

variable {component : Component α β} {results : β → Prop}

theorem place {label : String} {input : α} (h : (component.run input).Follows plan results) :
    (component.place label input).Follows (component.placePlan plan label) results := by
  rw [Component.placePlan, ← List.append_nil (plan.map _)]
  exact .within h fun value hvalue => .done (h.of_ok hvalue)

theorem placeAll {entries : List (String × α)}
    (h : ∀ x ∈ entries.map Prod.snd, (component.run x).Follows plan results) :
    (component.placeAll entries).Follows (component.placeAllPlan plan (entries.map Prod.fst))
      fun witnesses => witnesses.length = entries.length ∧ ∀ w ∈ witnesses, results w := by
  induction entries with
  | nil => exact .done ⟨rfl, by simp⟩
  | cons entry entries ih =>
    have hhead : (component.place entry.1 entry.2).Follows _ _ :=
      (h entry.2 List.mem_cons_self).place
    have htail := ih fun x hx => h x (List.mem_cons_of_mem entry.2 hx)
    refine hhead.bind fun witness hw => htail.bind_done fun witnesses hws => .done ?_
    exact ⟨congrArg (· + 1) hws.1, List.forall_mem_cons.2 ⟨hw, hws.2⟩⟩

theorem placeEach (label : String) {inputs : List α}
    (h : ∀ x ∈ inputs, (component.run x).Follows plan results) :
    (component.placeEach label inputs).Follows
      (component.placeEachPlan plan label inputs.length)
      fun witnesses => witnesses.length = inputs.length ∧ ∀ w ∈ witnesses, results w := by
  have hall : (component.placeAll (Component.numbered label inputs)).Follows _ _ :=
    placeAll (by rwa [Decides.map_snd_numbered])
  rwa [Component.map_fst_numbered, Component.length_numbered] at hall

theorem placeDown (label : String) {inputs : List α}
    (h : ∀ x ∈ inputs, (component.run x).Follows plan results) :
    (component.placeDown label inputs).Follows
      (component.placeDownPlan plan label inputs.length)
      fun witnesses => witnesses.length = inputs.length ∧ ∀ w ∈ witnesses, results w := by
  have hentries : ∀ x ∈ (Component.numbered label inputs).reverse.map Prod.snd,
      (component.run x).Follows plan results := by
    rw [List.map_reverse, Decides.map_snd_numbered]
    exact fun x hx => h x (List.mem_reverse.1 hx)
  have hall := placeAll hentries
  rw [List.map_reverse, Component.map_fst_numbered, List.length_reverse,
    Component.length_numbered] at hall
  refine hall.bind_done fun witnesses hws => .done ?_
  exact ⟨List.length_reverse.trans hws.1, fun w hw => hws.2 w (List.mem_reverse.1 hw)⟩

end Components

end Follows

end Run

/-! ## Performing a planned run -/

/-- The error belongs to a check of the plan, the last one that was counted. -/
structure ConstraintError.Planned (plan : Plan) (before after : Context) (e : ConstraintError) :
    Prop where
  unequal : ∃ description lhs rhs, e.cause = .unequal description lhs rhs
  index_succ : e.index + 1 = after.constraintCount
  le_index : before.constraintCount ≤ e.index
  site : ∃ site, (sites plan)[e.index - before.constraintCount]? = some site ∧
    e.path = site.place ++ before.path ∧ e.cause.description? = site.description

namespace ConstraintError.Planned

variable {plan : Plan} {before after after' : Context} {e e' : ConstraintError}

theorem index_lt (h : e.Planned plan before after) :
    e.index < before.constraintCount + plan.constraintCount := by
  obtain ⟨site, hsite, _⟩ := h.site
  obtain ⟨hlt, _⟩ := List.getElem?_eq_some_iff.1 hsite
  have hle := h.le_index
  unfold Plan.constraintCount
  omega

/-- The number of an error determines its instance and the description of its check. -/
theorem eq_of_index_eq (h : e.Planned plan before after) (h' : e'.Planned plan before after')
    (hindex : e.index = e'.index) :
    e.path = e'.path ∧ e.cause.description? = e'.cause.description? := by
  obtain ⟨site, hsite, hpath, hdescription⟩ := h.site
  obtain ⟨site', hsite', hpath', hdescription'⟩ := h'.site
  rw [hindex, hsite'] at hsite
  obtain rfl := Option.some.inj hsite
  exact ⟨hpath.trans hpath'.symm, hdescription.trans hdescription'.symm⟩

end ConstraintError.Planned

/-- In a context a run that follows a plan takes all of its steps, or an error belongs to one of its
checks. -/
theorem Run.Follows.exec_cases {α : Type} {run : Run α} {plan : Plan} {post : α → Prop}
    (h : run.Follows plan post) (context : Context) :
    (∃ value, (run.exec context).1 = .ok value ∧ post value ∧
        context.Accounts plan (run.exec context).2) ∨
      ∃ e, (run.exec context).1 = .error (.error e) ∧
        e.Planned plan context (run.exec context).2 := by
  have haccounts := (run.exec_reaches context).accounts
  rcases h.cases with ⟨value, hvalue, htrace, hpost⟩ |
    ⟨failure, description, lhs, rhs, hfailure, hcause, htrace⟩
  · rw [htrace] at haccounts
    exact Or.inl ⟨value, exec_of_outcome_ok hvalue context, hpost, haccounts⟩
  · obtain ⟨e, he, _, hecause⟩ := exec_of_outcome_error hfailure context
    have hindex := exec_error_index he
    obtain ⟨site, hsite, hpath, hdescription⟩ := exec_error_site he
    have hcount := haccounts.constraintCount
    have hpos : 0 < (sites run.trace).length :=
      List.length_pos_of_mem (List.mem_of_getLast? hsite)
    -- the constraints checked are the first ones of the plan, and the last of them has failed
    have hlast : e.index - context.constraintCount = (sites run.trace).length - 1 := by omega
    rw [List.getLast?_eq_getElem?, ← hlast] at hsite
    obtain ⟨hlt, hsite⟩ := List.getElem?_eq_some_iff.1 hsite
    have hplanned := List.prefix_iff_getElem?.1 (htrace.filterMap Step.site?) _ hlt
    refine Or.inr ⟨e, he, ⟨description, lhs, rhs, hecause.trans hcause⟩, hindex, by omega, site, ?_,
      hpath, hdescription⟩
    exact hplanned.trans (congrArg some hsite)

end RsaCircuit
