import IndexQuery.Proofs.Scan.Statement

/-!
# Runs with failing calls

A run leaves out the calls that fail, and whether a call fails is decided by the index alone.  So a
run makes the changes of its calls in order, and each part of the query after it is decided by the
changes to that part: the last order, the last argument of a limit, the last argument of an offset.

    q.run cs = q.updateAll (cs.flatMap q.index.effect)                                (run_eq)
    q.applyAll cs = .ok q' → q.run cs = q'                                   (run_of_applyAll)
    q.report cs = cs.map fun c => (c, q.failure? c)                            (report_eq_map)
    (q.updateAll us).offset = (us.filterMap Update.skip?).getLast?.getD q.offset
                                                                              (offset_updateAll)
-/

namespace IndexQuery

open Outcome

/-! ## Algorithm -/

/-- The changes that a call makes, none if it fails. -/
def Index.effect (i : Index) (c : Call) : List Update :=
  match i.updates c with
  | .ok us => us
  | .error _ => []

namespace Query

/-- Why a call fails, if it does. -/
def failure? (q : Query) (c : Call) : Option Error :=
  match q.apply c with
  | .ok _ => none
  | .error e => some e

/-- What becomes of each call of a run. -/
def report : Query → List Call → List (Call × Option Error)
  | _, [] => []
  | q, c :: cs => (c, q.failure? c) :: report (q.attempt c) cs

end Query

namespace Update

/-- The option that an update sets. -/
def option? : Update → Option (String × OptionValue)
  | .option name value => some (name, value)
  | _ => none

/-- The order that an update asks for. -/
def order? : Update → Option (List OrderTerm)
  | .order ts => some ts
  | _ => none

/-- The number of rows that an update asks for. -/
def take? : Update → Option UInt64
  | .take count => some count
  | _ => none

/-- The number of rows that an update skips. -/
def skip? : Update → Option UInt64
  | .skip count => some count
  | _ => none

end Update

/-! ## Runs -/

namespace Index

variable {i : Index} {c : Call}

theorem effect_of_ok {us : List Update} (h : i.updates c = .ok us) : i.effect c = us := by
  unfold effect
  rw [h]

theorem effect_of_error {e : Error} (h : i.updates c = .error e) : i.effect c = [] := by
  unfold effect
  rw [h]

end Index

namespace Query

theorem attempt_eq (q : Query) (c : Call) : q.attempt c = q.updateAll (q.index.effect c) := by
  unfold attempt Index.effect
  rw [apply_eq]
  cases q.index.updates c <;> rfl

theorem run_eq (q : Query) (cs : List Call) :
    q.run cs = q.updateAll (cs.flatMap q.index.effect) := by
  induction cs generalizing q with
  | nil => rfl
  | cons c cs ih =>
    have hindex : (q.attempt c).index = q.index := by rw [attempt_eq, index_updateAll]
    show (q.attempt c).run cs = _
    rw [ih, hindex, attempt_eq, List.flatMap_cons, updateAll_append]

/-- A call that fails changes nothing. -/
theorem attempt_of_error {q : Query} {c : Call} {e : Error} (h : q.apply c = .error e) :
    q.attempt c = q := by
  unfold attempt
  rw [h]

/-- Calls that all succeed are a run in which none is left out. -/
theorem run_of_applyAll {q q' : Query} {cs : List Call} (h : q.applyAll cs = .ok q') :
    q.run cs = q' := by
  unfold applyAll at h
  induction cs generalizing q with
  | nil =>
    cases h
    rfl
  | cons c cs ih =>
    obtain ⟨q₁, hq₁, h⟩ := bind_eq_ok.mp h
    have hattempt : q.attempt c = q₁ := by
      unfold attempt
      rw [hq₁]
    show (q.attempt c).run cs = q'
    rw [hattempt, ih h]

/-- Queries of one index fail alike. -/
theorem failure?_congr {q q' : Query} (h : q.index = q'.index) (c : Call) :
    q.failure? c = q'.failure? c := by
  unfold failure?
  rw [apply_eq, apply_eq, h]
  cases q'.index.updates c <;> rfl

/-- No call of a run fails because of the calls before it. -/
theorem report_eq_map (q : Query) (cs : List Call) :
    q.report cs = cs.map fun c => (c, q.failure? c) := by
  have hrest : ∀ (q' : Query), q'.index = q.index →
      q'.report cs = cs.map fun c => (c, q.failure? c) := by
    induction cs with
    | nil => exact fun _ _ => rfl
    | cons c cs ih =>
      intro q' h
      have hindex : (q'.attempt c).index = q.index := by rw [attempt_eq, index_updateAll, h]
      rw [report, ih _ hindex, failure?_congr h, List.map_cons]
  exact hrest q rfl

end Query

/-! ## The parts of a query after updates -/

namespace Query

variable (q : Query) (us : List Update)

/-- A part that updates overwrite holds what the last of them wrote. -/
theorem last_updateAll {α : Type} (part : Query → α) {pick : Update → Option α}
    (h : ∀ q u, part (q.update u) = (pick u).getD (part q)) :
    part (q.updateAll us) = (us.filterMap pick).getLast?.getD (part q) := by
  induction us generalizing q with
  | nil => rfl
  | cons u us ih =>
    have hrest := ih (q.update u)
    rw [h] at hrest
    refine hrest.trans ?_
    cases hu : pick u with
    | none => rw [List.filterMap_cons_none hu, Option.getD_none]
    | some a =>
      rw [List.filterMap_cons_some hu, List.getLast?_cons, Option.getD_some, Option.getD_some]

theorem last_orderBy :
    (q.updateAll us).base.orderBy = (us.filterMap Update.order?).getLast?.getD q.base.orderBy := by
  apply last_updateAll q us fun q => q.base.orderBy
  intro q u
  cases u <;> rfl

theorem offset_updateAll :
    (q.updateAll us).offset = (us.filterMap Update.skip?).getLast?.getD q.offset := by
  apply last_updateAll q us fun q => q.offset
  intro q u
  cases u <;> rfl

theorem options_updateAll :
    (q.updateAll us).clauses.options.entries =
      (us.filterMap Update.option?).foldl (fun es o => OptionSet.put o.1 o.2 es)
        q.clauses.options.entries := by
  induction us generalizing q with
  | nil => rfl
  | cons u us ih =>
    refine (ih (q.update u)).trans ?_
    cases u <;> rfl

/-- The limit is the last one asked for, and otherwise the greatest one as soon as rows are
skipped. -/
theorem limit_updateAll :
    (q.updateAll us).limit =
      match (us.filterMap Update.take?).getLast? with
      | some count => some (q.index.settings.clamp count)
      | none =>
        if us.filterMap Update.skip? = [] then q.limit
        else some (q.limit.getD q.index.settings.maxLimit) := by
  induction us generalizing q with
  | nil => rfl
  | cons u us ih =>
    have hrest := ih (q.update u)
    rw [index_update] at hrest
    refine hrest.trans ?_
    cases u with
    | take count =>
      have htake : (Update.take count :: us).filterMap Update.take? =
          count :: us.filterMap Update.take? := rfl
      have hskip : (Update.take count :: us).filterMap Update.skip? =
          us.filterMap Update.skip? := rfl
      rw [htake, hskip, List.getLast?_cons]
      cases (us.filterMap Update.take?).getLast? with
      | some n => rfl
      | none => exact ite_self _
    | skip count =>
      have htake : (Update.skip count :: us).filterMap Update.take? =
          us.filterMap Update.take? := rfl
      have hskip : (Update.skip count :: us).filterMap Update.skip? =
          count :: us.filterMap Update.skip? := rfl
      rw [htake, hskip]
      cases (us.filterMap Update.take?).getLast? with
      | some n => rfl
      | none =>
        rw [if_neg (List.cons_ne_nil _ _)]
        exact ite_self _
    | _ => rfl

/-- The base query has the range of rows of the query on top of it. -/
structure Paged (q : Query) : Prop where
  offset : q.base.offset = q.offset
  limit : q.base.limit = q.limit

theorem Paged.updateAll {q : Query} (h : q.Paged) (us : List Update) : (q.updateAll us).Paged := by
  induction us generalizing q with
  | nil => exact h
  | cons u us ih =>
    apply ih
    cases u with
    | take count => exact ⟨rfl, rfl⟩
    | skip count => exact ⟨rfl, rfl⟩
    | _ => exact ⟨h.offset, h.limit⟩

end Query

namespace Index

variable {i : Index}

/-- A query on a base query starts with the default range and the default options. -/
theorem eq_of_queryWith {b : Select} {q : Query} (h : i.queryWith b = .ok q) :
    ∃ o, i.settings.optionSet = .ok o ∧ q = ⟨i, b.withLimits 0 i.settings.defaultLimit,
      .ofOptions o, 0, i.settings.defaultLimit⟩ := by
  obtain ⟨o, ho, h⟩ := bind_eq_ok.mp h
  cases h
  exact ⟨o, ho, rfl⟩

/-- Accepted settings suffice to start a query on any base query. -/
theorem exists_queryWith (hs : i.settings.validate = .ok ()) (b : Select) :
    ∃ q, i.queryWith b = .ok q := by
  obtain ⟨-, -, -, -, o, ho⟩ := Settings.validate_eq_ok hs
  exact ⟨_, bind_eq_ok.mpr ⟨o, ho, rfl⟩⟩

theorem paged_of_query {q : Query} (hq : i.query = .ok q) : q.Paged := by
  obtain ⟨o, -, rfl⟩ := eq_of_queryWith hq
  exact ⟨rfl, rfl⟩

theorem from_of_effect (hi : i.Valid) (cs : List Call) :
    ∀ u ∈ cs.flatMap i.effect, u.From i := by
  intro u hu
  obtain ⟨c, -, hu⟩ := List.mem_flatMap.mp hu
  unfold effect at hu
  split at hu
  · next us hus => exact from_of_updates hi hus u hu
  · cases hu

/-- A run reaches what the changes of its calls decide. -/
theorem reaches_run (hi : i.Valid) {q : Query} (hq : i.query = .ok q) (cs : List Call) :
    i.Reaches (cs.flatMap i.effect) (q.run cs) := by
  rw [Query.run_eq, index_of_query hq]
  exact reaches_updateAll hi hq (from_of_effect hi cs)

end Index

end IndexQuery
