import Aleatory.Proofs.Mode.Unrolling
import Mathlib.Algebra.GroupWithZero.Nat

/-!
# A loop as its passes

From a value from which a loop ends, its passes hand on a finite list of values, and the last pass
stops with a wrapped result (`Passes`). The loop then comes to the same as going on from pass to
pass to that depth and mapping the last one (`nested`): it makes every pass once, in order, and
ends with the result of the last one, under which a symbolic loop puts the steps of all passes and
one more for every value handed on. Only where these steps do not fit in 64 bits the two differ, in
when they notice: the loop makes no pass after that (`iterate_unrolls`).

Passes that keep a state of their own are passes over pairs of a value and that state.
-/

namespace Aleatory

universe u v w

namespace Mode

variable {ω : Type} {α : Type u} {β : Type v} {F : Mode}
  {pass : α → Traced ω (F.Result (Pass α β))}

/-! ## Passes -/

/-- The values that the passes of a loop hand on, and what the last pass ends with: a fault, or the
wrapped result that it stops with, which may be a failure. -/
inductive Passes (F : Mode) (pass : α → Traced ω (F.Result (Pass α β))) :
    α → List α → Except Fault (F.Result β) → Prop
  | fault {a : α} {fault : Fault} (h : (pass a).result = .error fault) :
      Passes F pass a [] (.error fault)
  | stop {a : α} {wrapped : F.Result β} (h : (pass a).result = .ok (F.map .stop wrapped)) :
      Passes F pass a [] (.ok wrapped)
  | again {a a' : α} {as : List α} {out : Except Fault (F.Result β)} {r : F.Result (Pass α β)}
      (h : (pass a).result = .ok r) (hnext : F.next? r = some a')
      (later : Passes F pass a' as out) :
      Passes F pass a (a' :: as) out

/-- A wrapped pass asks for another one, or stops with a wrapped result. -/
theorem next?_or_stop (r : F.Result (Pass α β)) :
    (∃ a, F.next? r = some a) ∨ ∃ wrapped, r = F.map .stop wrapped := by
  cases F with
  | identity =>
      cases r with
      | again a => exact .inl ⟨a, rfl⟩
      | stop b => exact .inr ⟨b, rfl⟩
  | fallible ε =>
      rcases r with e | a | b
      · exact .inr ⟨.error e, rfl⟩
      · exact .inl ⟨a, rfl⟩
      · exact .inr ⟨.ok b, rfl⟩
  | symbolic =>
      obtain ⟨a | b, n⟩ := r
      · exact .inl ⟨a, rfl⟩
      · exact .inr ⟨⟨b, n⟩, rfl⟩

theorem next?_stop (wrapped : F.Result β) :
    F.next? (F.map (Pass.stop : β → Pass α β) wrapped) = none := by
  cases F with
  | identity => rfl
  | fallible ε => cases wrapped <;> rfl
  | symbolic => rfl

theorem exists_passes {a : α} (ends : Acc (F.HandsOn pass) a) :
    ∃ as out, F.Passes pass a as out := by
  induction ends with
  | intro a _ ih =>
      rcases h : (pass a).result with fault | r
      · exact ⟨[], _, .fault h⟩
      · rcases next?_or_stop r with ⟨a', hnext⟩ | ⟨wrapped, rfl⟩
        · obtain ⟨as, out, later⟩ := ih a' ⟨r, h, hnext⟩
          exact ⟨a' :: as, out, .again h hnext later⟩
        · exact ⟨[], _, .stop h⟩

theorem Passes.acc {a : α} {as : List α} {out : Except Fault (F.Result β)}
    (h : F.Passes pass a as out) : Acc (F.HandsOn pass) a := by
  induction h with
  | fault h =>
      refine .intro _ fun a' handed => ?_
      obtain ⟨r, hr, -⟩ := handed
      cases h.symm.trans hr
  | stop h =>
      refine .intro _ fun a' handed => ?_
      obtain ⟨r, hr, hnext⟩ := handed
      cases h.symm.trans hr
      rw [next?_stop] at hnext
      cases hnext
  | again h hnext _ ih =>
      refine .intro _ fun b handed => ?_
      obtain ⟨r, hr, hb⟩ := handed
      cases h.symm.trans hr
      cases hnext.symm.trans hb
      exact ih

/-! ## The steps of a loop -/

/-- The steps that a wrapped result counts. -/
def stepsOf : (F : Mode) → F.Result α → Nat
  | .identity, _ => 0
  | .fallible _, _ => 0
  | .symbolic, t => t.steps.toNat

/-- Puts another number of steps under a wrapped result, where steps are counted. -/
def recount : (F : Mode) → Nat → F.Result β → Except Fault (F.Result β)
  | .identity, _, b => .ok b
  | .fallible _, _, wrapped => .ok wrapped
  | .symbolic, n, t => if n < UInt64.size then .ok ⟨t.value, .ofNat n⟩ else .error .stepOverflow

/-- The steps that one pass counts. -/
def stepsAt (F : Mode) (pass : α → Traced ω (F.Result (Pass α β))) (a : α) : Nat :=
  match (pass a).result with
  | .ok r => F.stepsOf r
  | .error _ => 0

/-- The steps of all passes of a loop, and one for every value that is handed on. -/
def totalSteps (F : Mode) (pass : α → Traced ω (F.Result (Pass α β))) (a : α) (as : List α) : Nat :=
  ((a :: as).map (F.stepsAt pass)).sum + as.length

/-- The steps after passes that all ask for another one. -/
def stepsThrough (F : Mode) (pass : α → Traced ω (F.Result (Pass α β))) (made : List α) : Nat :=
  (made.map (F.stepsAt pass)).sum + made.length

/-- What passes from these values log. -/
def logOf (pass : α → Traced ω (F.Result (Pass α β))) (made : List α) : Array ω :=
  (made.flatMap fun a => (pass a).log.toList).toArray

theorem stepsAt_of_ok {a : α} {r : F.Result (Pass α β)} (h : (pass a).result = .ok r) :
    F.stepsAt pass a = F.stepsOf r := by
  rw [stepsAt, h]

theorem totalSteps_cons (a a' : α) (as : List α) :
    F.totalSteps pass a (a' :: as) = F.stepsAt pass a + 1 + F.totalSteps pass a' as := by
  simp only [totalSteps, List.map_cons, List.sum_cons, List.length_cons]
  omega

theorem stepsThrough_cons (a : α) (made : List α) :
    F.stepsThrough pass (a :: made) = F.stepsAt pass a + 1 + F.stepsThrough pass made := by
  simp only [stepsThrough, List.map_cons, List.sum_cons, List.length_cons]
  omega

theorem logOf_singleton (a : α) : logOf pass [a] = (pass a).log := by
  simp [logOf]

theorem logOf_cons (a : α) (made : List α) :
    logOf pass (a :: made) = (pass a).log ++ logOf pass made := by
  simp [logOf]

theorem stepsOf_map {γ : Type w} (f : β → γ) (wrapped : F.Result β) :
    F.stepsOf (F.map f wrapped) = F.stepsOf wrapped := by
  cases F with
  | identity => rfl
  | fallible ε => cases wrapped <;> rfl
  | symbolic => rfl

theorem totalSteps_of_stop {a : α} {wrapped : F.Result β}
    (h : (pass a).result = .ok (F.map .stop wrapped)) :
    F.totalSteps pass a [] = F.stepsOf wrapped := by
  simp [totalSteps, stepsAt_of_ok h, stepsOf_map]

theorem recount_congr {m n : Nat} (h : F = .symbolic → m = n) (wrapped : F.Result β) :
    F.recount m wrapped = F.recount n wrapped := by
  cases F with
  | identity => rfl
  | fallible ε => rfl
  | symbolic => rw [h rfl]

theorem recount_of_fit {n : Nat} (h : n < UInt64.size) (t : Counted β) :
    recount .symbolic n t = .ok ⟨t.value, .ofNat n⟩ := if_pos h

theorem recount_of_overflow {n : Nat} (h : UInt64.size ≤ n) (t : Counted β) :
    recount .symbolic n t = .error .stepOverflow := if_neg (Nat.not_lt.mpr h)

theorem recount_stepsOf (wrapped : F.Result β) :
    F.recount (F.stepsOf wrapped) wrapped = .ok wrapped := by
  cases F with
  | identity => rfl
  | fallible ε => rfl
  | symbolic =>
      refine (recount_of_fit wrapped.steps.toNat_lt wrapped).trans ?_
      rw [UInt64.ofNat_toNat]

/-- Steps that do not fit do not fit below more steps either. -/
theorem recount_bind_recount (m n : Nat) (wrapped : F.Result β) :
    (F.recount n wrapped).bind (fun w => F.recount (m + F.stepsOf w) w) =
      F.recount (m + n) wrapped := by
  cases F with
  | identity => rfl
  | fallible ε => rfl
  | symbolic =>
      by_cases hn : n < UInt64.size
      · rw [recount_of_fit hn]
        simp only [Except.bind, stepsOf, UInt64.toNat_ofNat_of_lt' hn]
        rfl
      · rw [recount_of_overflow (Nat.le_of_not_lt hn), recount_of_overflow (by omega)]
        rfl

theorem following_eq_recount (earlier : UInt64) (t : Counted β) :
    t.following earlier = recount .symbolic (earlier.toNat + 1 + t.steps.toNat) t := by
  rw [Counted.following]
  by_cases hfit : earlier.toNat + t.steps.toNat + 1 < UInt64.size
  · have hsteps : earlier + t.steps + 1 = .ofNat (earlier.toNat + 1 + t.steps.toNat) := by
      rw [Nat.add_right_comm, ← toNat_sequenceSteps hfit, UInt64.ofNat_toNat]
    rw [sequenceSteps_of_lt hfit, recount_of_fit (by omega), hsteps]
  · have hover := Nat.le_of_not_lt hfit
    rw [sequenceSteps_of_le hover, recount_of_overflow (by omega)]

/-! ## One pass -/

theorem bind_ok_eq {γ : Type w} (result : Except Fault γ) : result.bind .ok = result := by
  cases result <;> rfl

theorem onward_stop (steps : UInt64) (wrapped : F.Result β) :
    F.onward steps (F.map (Pass.stop : β → Pass α β) wrapped) =
      .ended (F.recount (steps.toNat + F.stepsOf wrapped) wrapped) := by
  cases F with
  | identity => rfl
  | fallible ε => cases wrapped <;> rfl
  | symbolic =>
      simp only [onward, onwardSymbolic, map, stepsOf]
      by_cases hfit : steps.toNat + wrapped.steps.toNat < UInt64.size
      · rw [addCounts_of_lt _ hfit, recount_of_fit hfit, UInt64.ofNat_add, UInt64.ofNat_toNat,
          UInt64.ofNat_toNat]
      · have hover := Nat.le_of_not_lt hfit
        rw [addCounts_of_le _ hover, recount_of_overflow hover]

theorem eq_of_next?_symbolic {r : Counted (Pass α β)} {a : α}
    (h : next? .symbolic r = some a) : r = ⟨.again a, r.steps⟩ := by
  obtain ⟨b | b, n⟩ := r
  · cases h
    rfl
  · cases h

/-- A pass that asks for another one is followed by it, if the steps fit. -/
theorem onward_of_fit {r : F.Result (Pass α β)} {a : α} (h : F.next? r = some a) (steps : UInt64)
    (hfit : F = .symbolic → steps.toNat + (F.stepsOf r + 1) < UInt64.size) :
    ∃ steps', F.onward steps r = .more steps' a ∧
      (F = .symbolic → steps'.toNat = steps.toNat + (F.stepsOf r + 1)) := by
  cases F with
  | identity =>
      cases r with
      | again b =>
          cases h
          exact ⟨steps, rfl, nofun⟩
      | stop b => cases h
  | fallible ε =>
      match r, h with
      | .ok (.again b), h =>
          cases h
          exact ⟨steps, rfl, nofun⟩
  | symbolic =>
      have hsum : steps.toNat + r.steps.toNat + 1 < UInt64.size := hfit rfl
      refine ⟨steps + r.steps + 1, ?_, fun _ => toNat_sequenceSteps hsum⟩
      rw [eq_of_next?_symbolic h]
      exact (onwardSymbolic_again steps r.steps a).trans (by rw [sequenceSteps_of_lt hsum])

theorem onward_of_overflow {r : Counted (Pass α β)} {a : α} (h : next? .symbolic r = some a)
    (steps : UInt64) (hover : UInt64.size ≤ steps.toNat + (r.steps.toNat + 1)) :
    onward .symbolic steps r = .ended (.error .stepOverflow) := by
  rw [eq_of_next?_symbolic h]
  exact (onwardSymbolic_again steps r.steps a).trans (by rw [sequenceSteps_of_le hover])

/-- Going on from a pass that asks for another one puts its steps and one more under what
follows. -/
theorem andThen_of_next? {r : F.Result (Pass α β)} {a : α} (h : F.next? r = some a)
    (k : Pass α β → Traced ω (F.Result β)) :
    F.andThen r k = ⟨(k (.again a)).log,
      (k (.again a)).result.bind fun w => F.recount (F.stepsOf r + 1 + F.stepsOf w) w⟩ := by
  cases F with
  | identity =>
      cases r with
      | again b =>
          cases h
          exact Traced.eq_mk_of_result (bind_ok_eq _).symm
      | stop b => cases h
  | fallible ε =>
      match r, h with
      | .ok (.again b), h =>
          cases h
          exact Traced.eq_mk_of_result (bind_ok_eq _).symm
  | symbolic =>
      rw [eq_of_next?_symbolic h]
      simp only [andThen, following_eq_recount]
      rcases k (.again a) with ⟨log, fault | next⟩
      · rfl
      · simp [Traced.ofExcept, Traced.after, Except.bind, stepsOf]

/-! ## All passes -/

/-- As long as the steps fit, a loop makes all of its passes. -/
theorem Passes.iterateFrom_eq {a : α} {as : List α} {out : Except Fault (F.Result β)}
    (h : F.Passes pass a as out) (ends : Acc (F.HandsOn pass) a) (log : Array ω) (steps : UInt64)
    (hfit : F = .symbolic → steps.toNat + F.totalSteps pass a as < UInt64.size) :
    F.iterateFrom pass log steps ⟨a, ends⟩ =
      ⟨log ++ logOf pass (a :: as),
        out.bind (F.recount (steps.toNat + F.totalSteps pass a as))⟩ := by
  -- The induction is on the passes; the log and the steps already made grow with each of them.
  induction h generalizing log steps with
  | fault h =>
      rw [iterateFrom_of_fault (Traced.eq_mk_of_result h), logOf_singleton]
      rfl
  | @stop a wrapped h =>
      rw [iterateFrom_of_ended (Traced.eq_mk_of_result h) (onward_stop steps wrapped),
        logOf_singleton, totalSteps_of_stop h]
      rfl
  | @again a a' as out r h hnext later ih =>
      have htotal : F.totalSteps pass a (a' :: as) =
          F.stepsOf r + 1 + F.totalSteps pass a' as := by
        rw [totalSteps_cons, stepsAt_of_ok h]
      obtain ⟨steps', hmore, hsteps'⟩ := onward_of_fit hnext steps fun hF => by
        have := hfit hF
        omega
      have hsum (hF : F = .symbolic) : steps'.toNat + F.totalSteps pass a' as =
          steps.toNat + F.totalSteps pass a (a' :: as) := by
        rw [hsteps' hF, htotal]
        omega
      rw [iterateFrom_of_more (Traced.eq_mk_of_result h) hmore log later.acc,
        ih later.acc _ steps' fun hF => by rw [hsum hF]; exact hfit hF, logOf_cons a,
        Array.append_assoc]
      congr 2
      funext wrapped
      exact recount_congr hsum wrapped

/-- A loop makes no pass after the first one whose steps do not fit any more. -/
theorem Passes.iterateFrom_overflow
    {pass : α → Traced ω (Mode.symbolic.Result (Pass α β))} {a : α} {as : List α}
    {out : Except Fault (Mode.symbolic.Result β)} (h : Mode.symbolic.Passes pass a as out)
    (ends : Acc (Mode.symbolic.HandsOn pass) a) (log : Array ω) (steps : UInt64)
    (hover : UInt64.size ≤ steps.toNat + Mode.symbolic.totalSteps pass a as) :
    ∃ made, made ≠ [] ∧ made <+: a :: as ∧
      steps.toNat + Mode.symbolic.stepsThrough pass made.dropLast < UInt64.size ∧
      (made = a :: as ∨ UInt64.size ≤ steps.toNat + Mode.symbolic.stepsThrough pass made) ∧
      Mode.symbolic.iterateFrom pass log steps ⟨a, ends⟩ =
        ⟨log ++ logOf pass made, .error .stepOverflow⟩ := by
  have hsteps : steps.toNat < UInt64.size := steps.toNat_lt
  induction h generalizing log steps with
  | @fault a fault h =>
      have htotal : Mode.symbolic.totalSteps pass a [] = 0 := by
        simp [totalSteps, stepsAt, h]
      omega
  | @stop a wrapped h =>
      rw [totalSteps_of_stop h] at hover
      refine ⟨[a], List.cons_ne_nil _ _, List.prefix_rfl, hsteps, .inl rfl, ?_⟩
      rw [iterateFrom_of_ended (Traced.eq_mk_of_result h) (onward_stop steps wrapped),
        logOf_singleton, recount_of_overflow hover]
  | @again a a' as out r h hnext later ih =>
      have hstepsAt : Mode.symbolic.stepsAt pass a = r.steps.toNat := stepsAt_of_ok h
      rw [totalSteps_cons, hstepsAt] at hover
      by_cases hfit : steps.toNat + (r.steps.toNat + 1) < UInt64.size
      · obtain ⟨steps', hmore, hsteps'⟩ := onward_of_fit hnext steps fun _ => hfit
        have hsum : steps'.toNat = steps.toNat + (r.steps.toNat + 1) := hsteps' rfl
        obtain ⟨made, hne, hmade, hbefore, hafter, hloop⟩ :=
          ih later.acc (log ++ (pass a).log) steps' (by omega) steps'.toNat_lt
        refine ⟨a :: made, List.cons_ne_nil _ _, List.cons_prefix_cons.mpr ⟨rfl, hmade⟩, ?_, ?_, ?_⟩
        · rw [List.dropLast_cons_of_ne_nil hne, stepsThrough_cons, hstepsAt]
          omega
        · rw [stepsThrough_cons, hstepsAt]
          exact hafter.imp (congrArg _) fun hle => by omega
        · rw [iterateFrom_of_more (Traced.eq_mk_of_result h) hmore log later.acc, hloop,
            logOf_cons a, Array.append_assoc]
      · have hover' := Nat.le_of_not_lt hfit
        refine ⟨[a], List.cons_ne_nil _ _, List.cons_prefix_cons.mpr ⟨rfl, List.nil_prefix⟩, hsteps,
          .inr ?_, ?_⟩
        · rw [stepsThrough_cons, hstepsAt]
          exact hover'
        · rw [iterateFrom_of_ended (Traced.eq_mk_of_result h)
            (onward_of_overflow hnext steps hover'), logOf_singleton]

/-! ## Loops with a bound -/

theorem Passes.iterateWithinFrom_eq {a : α} {as : List α} {out : Except Fault (F.Result β)}
    (h : F.Passes pass a as out) (ends : Acc (F.HandsOn pass) a) {bound : Nat}
    (hbound : as.length < bound) (log : Array ω) (steps : UInt64) :
    F.iterateWithinFrom pass bound log steps a = F.iterateFrom pass log steps ⟨a, ends⟩ := by
  obtain ⟨bound, rfl⟩ : ∃ n, bound = n + 1 := ⟨bound - 1, by omega⟩
  induction h generalizing bound log steps with
  | @fault a fault h =>
      have hpass := Traced.eq_mk_of_result h
      rw [iterateWithinFrom, hpass, iterateFrom_of_fault hpass]
  | @stop a wrapped h =>
      have hpass := Traced.eq_mk_of_result h
      rw [iterateWithinFrom, hpass]
      simp only [onward_stop, iterateFrom_of_ended hpass (onward_stop steps wrapped)]
  | @again a a' as out r h hnext later ih =>
      have hpass := Traced.eq_mk_of_result h
      rw [iterateWithinFrom, hpass]
      cases honward : F.onward steps r with
      | ended result => simp only [honward, iterateFrom_of_ended hpass honward]
      | more steps' b =>
          -- The steps fit; the pass goes on from the value that it asks for.
          obtain rfl : b = a' := Option.some.inj ((next?_of_onward honward).symm.trans hnext)
          obtain ⟨bound, rfl⟩ : ∃ n, bound = n + 1 := ⟨bound - 1, by
            rw [List.length_cons] at hbound
            omega⟩
          simp only [honward, iterateFrom_of_more hpass honward log later.acc]
          exact ih later.acc _ _ _ (by simpa using hbound)

/-- With a bound on its passes a loop does the same, as long as the bound is not reached. -/
theorem Passes.iterateWithin_eq {a : α} {as : List α} {out : Except Fault (F.Result β)}
    (h : F.Passes pass a as out) (ends : Acc (F.HandsOn pass) a) {bound : Nat}
    (hbound : as.length < bound) : F.iterateWithin bound pass a = F.iterate pass a ends :=
  h.iterateWithinFrom_eq ends hbound #[] 0

/-- Going on from pass to pass to a given depth, and mapping the pass at that depth. -/
def nested (F : Mode) (pass : α → Traced ω (F.Result (Pass α β))) :
    Nat → α → Traced ω (F.Result β)
  | 0, a => (pass a).andThen <| F.traverse fun
    | .stop b => .ret b
    | .again _ => .fail .passesExhausted
  | depth + 1, a => (pass a).andThen fun r => F.andThen r fun
    | .stop b => .ret (F.ret b)
    | .again a => nested F pass depth a

theorem traverse_stop (k : Pass α β → Traced ω β) (hk : ∀ b, k (.stop b) = .ret b)
    (wrapped : F.Result β) : F.traverse k (F.map .stop wrapped) = .ret wrapped := by
  cases F with
  | identity => exact hk wrapped
  | fallible ε =>
      cases wrapped with
      | error e => rfl
      | ok b => simp [map, traverse, hk]
  | symbolic => simp [map, traverse, hk]

theorem Passes.nested_eq {a : α} {as : List α} {out : Except Fault (F.Result β)}
    (h : F.Passes pass a as out) :
    F.nested pass as.length a =
      ⟨logOf pass (a :: as), out.bind (F.recount (F.totalSteps pass a as))⟩ := by
  induction h with
  | @fault a fault h =>
      rw [List.length_nil, nested, Traced.eq_mk_of_result h, logOf_singleton]
      rfl
  | @stop a wrapped h =>
      rw [List.length_nil, nested, Traced.eq_mk_of_result h, logOf_singleton,
        totalSteps_of_stop h, Traced.mk_ok_andThen, traverse_stop _ fun _ => rfl]
      simp [Traced.ret, Traced.after, Except.bind, recount_stepsOf]
  | @again a a' as out r h hnext later ih =>
      rw [List.length_cons, nested, Traced.eq_mk_of_result h, logOf_cons a, Traced.mk_ok_andThen,
        andThen_of_next? hnext, totalSteps_cons, stepsAt_of_ok h]
      simp only [ih, Traced.after]
      congr 1
      cases out with
      | error fault => rfl
      | ok wrapped => exact recount_bind_recount _ _ wrapped

/-- The passes of a loop, with a mark of the value that each of them starts from for a log. -/
def marked {ω' : Type} (mark : α → ω') (pass : α → Traced ω (F.Result (Pass α β))) (a : α) :
    Traced ω' (F.Result (Pass α β)) := ⟨#[mark a], (pass a).result⟩

theorem logOf_marked {ω' : Type} (mark : α → ω') (made : List α) :
    logOf (marked mark pass) made = (made.map mark).toArray := by
  simp [logOf, marked, ← List.map_eq_flatMap]

/-- Passes are told by their results alone. -/
theorem Passes.of_marked {ω' : Type} (mark : α → ω') {a : α} {as : List α}
    {out : Except Fault (F.Result β)} (h : F.Passes pass a as out) :
    F.Passes (marked mark pass) a as out := by
  induction h with
  | fault h => exact .fault h
  | stop h => exact .stop h
  | again h hnext _ ih => exact .again h hnext ih

section

variable {a : α} {as : List α} {out : Except Fault (F.Result β)} (h : F.Passes pass a as out)
  (ends : Acc (F.HandsOn pass) a)

include h

theorem Passes.iterate_eq (hfit : F = .symbolic → F.totalSteps pass a as < UInt64.size) :
    F.iterate pass a ends =
      ⟨logOf pass (a :: as), out.bind (F.recount (F.totalSteps pass a as))⟩ := by
  have hzero : (0 : UInt64).toNat + F.totalSteps pass a as = F.totalSteps pass a as :=
    Nat.zero_add _
  rw [iterate, h.iterateFrom_eq ends #[] 0 (by rw [hzero]; exact hfit), hzero, Array.empty_append]

theorem Passes.iterate_overflow (hF : F = .symbolic)
    (hover : UInt64.size ≤ F.totalSteps pass a as) :
    ∃ made, made ≠ [] ∧ made <+: a :: as ∧
      F.stepsThrough pass made.dropLast < UInt64.size ∧
      (made = a :: as ∨ UInt64.size ≤ F.stepsThrough pass made) ∧
      F.iterate pass a ends = ⟨logOf pass made, .error .stepOverflow⟩ := by
  subst hF
  have hzero (n : Nat) : (0 : UInt64).toNat + n = n := Nat.zero_add n
  obtain ⟨made, hne, hmade, hbefore, hafter, hloop⟩ :=
    h.iterateFrom_overflow ends #[] 0 (by rw [hzero]; exact hover)
  rw [hzero] at hbefore hafter
  exact ⟨made, hne, hmade, hbefore, hafter, by rw [iterate, hloop, Array.empty_append]⟩

end

/-- A loop ends just if its passes come to an end, and it comes to the same as going on from pass
to pass. It makes every pass once, in order, and ends with the wrapped result of the last one, with
the steps of all passes and one more for every value handed on. If they do not fit, it makes the
passes up to the first one after which they do not. -/
theorem iterate_unrolls (F : Mode) (pass : α → Traced ω (F.Result (Pass α β))) (a : α) :
    (Acc (F.HandsOn pass) a ↔ ∃ as out, F.Passes pass a as out) ∧
    ∀ (ends : Acc (F.HandsOn pass) a) (as : List α) (out : Except Fault (F.Result β)),
      F.Passes pass a as out →
      F.nested pass as.length a =
          ⟨logOf pass (a :: as), out.bind (F.recount (F.totalSteps pass a as))⟩ ∧
      (∀ wrapped, out = .ok wrapped → (F.iterate pass a ends).result =
          F.recount (F.totalSteps pass a as) wrapped) ∧
      ((F = .symbolic → F.totalSteps pass a as < UInt64.size) →
        F.iterate pass a ends = F.nested pass as.length a ∧
        ∀ {ω' : Type} (mark : α → ω'),
          (F.iterate (marked mark pass) a ends).log.toList = (a :: as).map mark) ∧
      (F = .symbolic → UInt64.size ≤ F.totalSteps pass a as →
        ∃ made, made ≠ [] ∧ made <+: a :: as ∧
          F.stepsThrough pass made.dropLast < UInt64.size ∧
          (made = a :: as ∨ UInt64.size ≤ F.stepsThrough pass made) ∧
          F.iterate pass a ends = ⟨logOf pass made, .error .stepOverflow⟩) := by
  refine ⟨⟨exists_passes, fun ⟨_, _, h⟩ => h.acc⟩, fun ends as out h =>
    ⟨h.nested_eq, ?_, fun hfit => ⟨?_, fun mark => ?_⟩, h.iterate_overflow ends⟩⟩
  · rintro wrapped rfl
    by_cases hfit : F = .symbolic → F.totalSteps pass a as < UInt64.size
    · rw [h.iterate_eq ends hfit]
      rfl
    · obtain ⟨rfl, hover⟩ := Classical.not_imp.mp hfit
      have hover := Nat.le_of_not_lt hover
      obtain ⟨made, -, -, -, -, hloop⟩ := h.iterate_overflow ends rfl hover
      rw [hloop, recount_of_overflow hover]
  · rw [h.iterate_eq ends hfit, h.nested_eq]
  · rw [(h.of_marked mark).iterate_eq ends hfit, logOf_marked]

/-- Counts down to zero, with a large number of steps for every pass. -/
def descend (last : UInt64) : Nat → Traced Nat (Mode.symbolic.Result (Pass Nat Nat))
  | 0 => ⟨#[0], .ok ⟨.stop 7, last⟩⟩
  | n + 1 => ⟨#[n + 1], .ok ⟨.again n, 0x4000000000000000⟩⟩

/-- Counts up, and fails at three. -/
def climb (n : Nat) : Traced Nat ((Mode.fallible String).Result (Pass Nat Nat)) :=
  ⟨#[n], .ok (if n = 3 then .error "stopped" else .ok (.again (n + 1)))⟩

theorem descend_passes (last : UInt64) :
    Mode.symbolic.Passes (descend last) 2 [1, 0] (.ok ⟨7, last⟩) :=
  .again rfl rfl (.again rfl rfl (.stop rfl))

theorem climb_passes : (Mode.fallible String).Passes climb 0 [1, 2, 3] (.ok (.error "stopped")) :=
  .again rfl rfl (.again rfl rfl (.again rfl rfl (.stop rfl)))

/-- The largest number of steps that fits, one step more, and a failure. -/
theorem iterate_unrolls_bounds :
    (∃ ends, Mode.symbolic.iterate (descend 0x7ffffffffffffffd) 2 ends =
      ⟨#[2, 1, 0], .ok ⟨7, 0xffffffffffffffff⟩⟩) ∧
    (∃ ends, (Mode.symbolic.iterate (descend 0x7ffffffffffffffe) 2 ends).result =
      .error .stepOverflow) ∧
    (∃ ends, (Mode.fallible String).iterate climb 0 ends =
      ⟨#[0, 1, 2, 3], .ok (.error "stopped")⟩) := by
  refine ⟨?_, ?_, ?_⟩
  · obtain ⟨hends, hloop⟩ := iterate_unrolls .symbolic (descend 0x7ffffffffffffffd) 2
    have ends := hends.mpr ⟨_, _, descend_passes _⟩
    obtain ⟨hnested, -, hfit, -⟩ := hloop ends _ _ (descend_passes _)
    exact ⟨ends, (hfit fun _ => by decide).1.trans hnested⟩
  · obtain ⟨hends, hloop⟩ := iterate_unrolls .symbolic (descend 0x7ffffffffffffffe) 2
    have ends := hends.mpr ⟨_, _, descend_passes _⟩
    obtain ⟨-, hresult, -⟩ := hloop ends _ _ (descend_passes _)
    exact ⟨ends, hresult _ rfl⟩
  · obtain ⟨hends, hloop⟩ := iterate_unrolls (.fallible String) climb 0
    have ends := hends.mpr ⟨_, _, climb_passes⟩
    obtain ⟨hnested, -, hfit, -⟩ := hloop ends _ _ climb_passes
    exact ⟨ends, (hfit nofun).1.trans hnested⟩

end Mode

end Aleatory
