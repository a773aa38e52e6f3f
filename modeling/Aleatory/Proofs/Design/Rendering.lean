import Aleatory.Proofs.Design.Chronicle

/-!
# What a regime makes of a chronicle

A regime that takes up failures sees a chronicle up to the first one, after which the histograms
around the failed step only split; the other regimes see all of its marks (`Regime.sight`).
`r.Renders steps t v` says that `v` is what a computation with the chronicle `t` does under the
regime `r`, after a number of steps already made: it ends in the failure seen, it returns the
value with its charges added to the steps, or it faults. Under the regime that counts it may
overflow instead, but if the chronicle reaches a value, only when the sum does not fit.

The relation is kept by everything that courses and chronicles are composed of, so a design and
its experiment can be followed side by side.
-/

namespace Aleatory

/-- What is seen of a log: marks, and the failure at which it ends. -/
structure Sight (φ : Type) where
  marks : Array Mark
  failure : Option φ

namespace Sight

variable {φ : Type}

/-- What is seen of two logs in a row. -/
def append : Sight φ → Sight φ → Sight φ
  | ⟨ms, some e⟩, _ => ⟨ms, some e⟩
  | ⟨ms, none⟩, s => ⟨ms ++ s.marks, s.failure⟩

/-- What is seen of a log within a histogram with more trials to come. -/
def within (trials : Nat) : Sight φ → Sight φ
  | ⟨ms, some e⟩ => ⟨ms ++ Array.replicate trials .split, some e⟩
  | ⟨ms, none⟩ => ⟨ms, none⟩

@[simp] theorem append_some (ms : Array Mark) (e : φ) (s : Sight φ) :
    append ⟨ms, some e⟩ s = ⟨ms, some e⟩ := rfl

@[simp] theorem append_none (ms : Array Mark) (s : Sight φ) :
    append ⟨ms, none⟩ s = ⟨ms ++ s.marks, s.failure⟩ := rfl

@[simp] theorem within_some (trials : Nat) (ms : Array Mark) (e : φ) :
    within trials ⟨ms, some e⟩ = ⟨ms ++ Array.replicate trials .split, some e⟩ := rfl

@[simp] theorem within_none (trials : Nat) (ms : Array Mark) :
    within trials (⟨ms, none⟩ : Sight φ) = ⟨ms, none⟩ := rfl

theorem append_assoc (s t u : Sight φ) : (s.append t).append u = s.append (t.append u) := by
  obtain ⟨ms, _ | e⟩ := s
  · obtain ⟨ms', _ | e'⟩ := t <;> simp
  · rfl

theorem within_append (trials : Nat) (s t : Sight φ) :
    (s.append t).within trials = (s.within trials).append (t.within trials) := by
  obtain ⟨ms, _ | e⟩ := s
  · obtain ⟨ms', _ | e'⟩ := t <;> simp
  · rfl

end Sight

namespace Regime

variable {ε α β : Type} {r : Regime}

/-- The failure that a regime takes up. -/
def heeds : (r : Regime) → ε → Option (r.mode ε).Failure
  | plain, _ => none
  | checked, e => some e
  | counted, _ => none

/-- What a regime sees of one happening. -/
def see (r : Regime) : Happening ε → Sight (r.mode ε).Failure
  | .mark m => ⟨#[m], none⟩
  | .failure e pending =>
    match r.heeds e with
    | some e => ⟨Array.replicate pending .split, some e⟩
    | none => ⟨#[], none⟩

/-- What a regime sees of a log. -/
def sight (r : Regime) (log : Array (Happening ε)) : Sight (r.mode ε).Failure :=
  log.toList.foldr (fun happening rest => (r.see happening).append rest) ⟨#[], none⟩

theorem see_within (trials : Nat) (happening : Happening ε) :
    r.see (happening.within trials) = (r.see happening).within trials := by
  cases happening with
  | mark m => rfl
  | failure e pending =>
      simp only [Happening.within, see]
      cases r.heeds e with
      | none => rfl
      | some e' => simp [Array.replicate_append_replicate]

theorem wrap_of_heeds {o : Outcome ε α} {e : (r.mode ε).Failure}
    (h : o.failure.bind r.heeds = some e) : r.wrap o = (r.mode ε).conclude (.error e) := by
  obtain ⟨value, failure, steps⟩ := o
  cases r with
  | plain => cases failure <;> cases h
  | checked =>
      cases failure with
      | none => cases h
      | some e' =>
          cases h
          rfl
  | counted => cases failure <;> cases h

theorem wrap_of_not_heeds {o : Outcome ε α} (h : o.failure.bind r.heeds = none) :
    r.wrap o = (r.mode ε).conclude (.ok ⟨o.value, o.steps⟩) := by
  obtain ⟨value, failure, steps⟩ := o
  cases r with
  | plain => rfl
  | checked =>
      cases failure with
      | none => rfl
      | some e => cases h
  | counted => rfl

@[simp] theorem sight_empty : r.sight (#[] : Array (Happening ε)) = ⟨#[], none⟩ := rfl

theorem sight_failure (failure : Option ε) :
    r.sight (failure.map (.failure · 0)).toArray = ⟨#[], failure.bind r.heeds⟩ := by
  cases failure with
  | none => rfl
  | some e =>
      show (r.see (.failure e 0)).append ⟨#[], none⟩ = ⟨#[], r.heeds e⟩
      simp only [see]
      cases r.heeds e <;> rfl

theorem sight_append (l l' : Array (Happening ε)) :
    r.sight (l ++ l') = (r.sight l).append (r.sight l') := by
  obtain ⟨l⟩ := l
  simp only [sight, Array.toList_append, List.foldr_append]
  induction l with
  | nil => simp
  | cons happening l ih => rw [List.foldr_cons, List.foldr_cons, ih, Sight.append_assoc]

theorem sight_append_of_eq {log log' : Array (Happening ε)} {ms : Array Mark}
    {s : Sight (r.mode ε).Failure} (hs : r.sight log = ⟨ms, none⟩) (hs' : r.sight log' = s) :
    r.sight (log ++ log') = ⟨ms ++ s.marks, s.failure⟩ := by
  rw [sight_append, hs, hs', Sight.append_none]

theorem sight_map_mark (ms : Array Mark) :
    r.sight (ms.map (.mark : Mark → Happening ε)) = ⟨ms, none⟩ := by
  obtain ⟨ms⟩ := ms
  simp only [sight, Array.toList_map, List.foldr_map]
  induction ms with
  | nil => rfl
  | cons m ms ih =>
      rw [List.foldr_cons, ih]
      simp [see]

theorem sight_map_within (trials : Nat) (log : Array (Happening ε)) :
    r.sight (log.map (.within trials)) = (r.sight log).within trials := by
  obtain ⟨log⟩ := log
  simp only [sight, Array.toList_map, List.foldr_map]
  induction log with
  | nil => rfl
  | cons happening log ih =>
      rw [List.foldr_cons, List.foldr_cons, ih, see_within, Sight.within_append]

/-- What a computation with a given chronicle does under a regime, after a number of steps. -/
inductive Renders (r : Regime) (steps : UInt64) :
    Chronicle ε α → Traced Mark (Except (r.mode ε).Failure (Counted α)) → Prop
  | failed {log : Array (Happening ε)} {result : Except Fault (Account α)} {ms : Array Mark}
      {e : (r.mode ε).Failure} (hsight : r.sight log = ⟨ms, some e⟩) :
      Renders r steps ⟨log, result⟩ ⟨ms, .ok (.error e)⟩
  | returned {log : Array (Happening ε)} {x : Account α} {ms : Array Mark} {sum : UInt64}
      (hsight : r.sight log = ⟨ms, none⟩)
      (hsum : r = .counted → sum.toNat = steps.toNat + x.total) :
      Renders r steps ⟨log, .ok x⟩ ⟨ms, .ok (.ok ⟨x.value, sum⟩)⟩
  | faulted {log : Array (Happening ε)} {fault : Fault} {ms : Array Mark}
      (hsight : r.sight log = ⟨ms, none⟩) :
      Renders r steps ⟨log, .error fault⟩ ⟨ms, .error fault⟩
  | overflowed {t : Chronicle ε α} {v : Traced Mark (Except (r.mode ε).Failure (Counted α))}
      (hr : r = .counted)
      (hover : ∀ x, t.result = .ok x → UInt64.size ≤ steps.toNat + x.total)
      (hv : v.result = .error .stepOverflow) : Renders r steps t v

/-- A wrapped result is what a regime makes of a chronicle. -/
def Reports (r : Regime) (t : Chronicle ε α) (u : Traced Mark ((r.mode ε).Result α)) : Prop :=
  ∃ v, r.Renders 0 t v ∧ u = ⟨v.log, v.result.map (r.mode ε).conclude⟩

end Regime

/-- The same course within a histogram with more trials to come: after a failure there is still a
split for each of them. -/
def Course.within {F : Mode} {α : Type} (trials : Nat) (c : Course F α) : Course F α := fun steps =>
  (c steps).andThen fun
    | .ok t => .ret (.ok t)
    | .error e => ⟨Array.replicate trials .split, .ok (.error e)⟩

/-! ## What keeps the relation -/

namespace Regime.Renders

variable {ε α β : Type} {r : Regime} {steps : UInt64} {t : Chronicle ε α}
  {v : Traced Mark (Except (r.mode ε).Failure (Counted α))}

theorem after (ms : Array Mark) (h : r.Renders steps t v) :
    r.Renders steps (t.after (ms.map .mark)) (v.after ms) := by
  have hms : r.sight (ms.map (.mark : Mark → Happening ε)) = ⟨ms, none⟩ := sight_map_mark ms
  cases h with
  | failed hs => exact .failed (sight_append_of_eq hms hs)
  | returned hs hsum => exact .returned (sight_append_of_eq hms hs) hsum
  | faulted hs => exact .faulted (sight_append_of_eq hms hs)
  | overflowed hr hover hv => exact .overflowed hr hover hv

theorem after_mark (m : Mark) (h : r.Renders steps t v) :
    r.Renders steps (t.after #[.mark m]) (v.after #[m]) := by
  simpa using h.after #[m]

theorem ret (a : α) : r.Renders steps (Chronicle.ret a : Chronicle ε α) (Course.ret a steps) :=
  .returned (x := ⟨a, []⟩) sight_empty fun _ => rfl

theorem lift (t : Traced Mark α) :
    r.Renders steps (Chronicle.lift t : Chronicle ε α) (Course.lift t steps) := by
  obtain ⟨log, fault | a⟩ := t
  · exact .faulted (sight_map_mark log)
  · have hcourse : Course.lift ⟨log, .ok a⟩ steps =
        (⟨log, .ok (.ok ⟨a, steps⟩)⟩ : Traced Mark (Except (r.mode ε).Failure (Counted α))) := by
      simp [Course.lift, Traced.ret, Traced.after]
    rw [hcourse]
    exact .returned (x := ⟨a, []⟩) (sight_map_mark log) fun _ => rfl

/-- Behind a value that was returned, what follows goes on from the steps made by then. -/
theorem bind_returned {log : Array (Happening ε)} {x : Account α} {ms : Array Mark} {sum : UInt64}
    (hs : r.sight log = ⟨ms, none⟩) (hsum : r = .counted → sum.toNat = steps.toNat + x.total)
    {k : α → Chronicle ε β} {w : Traced Mark (Except (r.mode ε).Failure (Counted β))}
    (h : r.Renders sum (k x.value) w) :
    r.Renders steps (Chronicle.bind ⟨log, .ok x⟩ k) (w.after ms) := by
  rw [Chronicle.bind_ok]
  rcases hk : k x.value with ⟨log', result'⟩
  rw [hk] at h
  cases h with
  | failed hs' => exact .failed (sight_append_of_eq hs hs')
  | returned hs' hsum' =>
      refine .returned (x := .behind x.charges _) (sight_append_of_eq hs hs') fun hr => ?_
      rw [hsum' hr, hsum hr, Account.total_behind, Nat.add_assoc]
  | faulted hs' => exact .faulted (sight_append_of_eq hs hs')
  | overflowed hr hover hw =>
      refine .overflowed hr (fun z hz => ?_) hw
      obtain ⟨y, hy, rfl⟩ := exists_of_map_eq_ok hz
      have hle := hover y hy
      rw [hsum hr] at hle
      rw [Account.total_behind]
      omega

/-- A failure that was seen hides what follows. -/
theorem bind_failed {ms : Array Mark} {e : (r.mode ε).Failure} (hs : r.sight t.log = ⟨ms, some e⟩)
    (k : α → Chronicle ε β) : r.Renders steps (t.bind k) ⟨ms, .ok (.error e)⟩ := by
  rcases t with ⟨log, fault | x⟩
  · exact .failed hs
  · refine .failed ?_
    rw [sight_append, hs, Sight.append_some]

/-- What follows an overflow adds to a sum that is too large already. -/
theorem bind_overflowed (hr : r = .counted)
    (hover : ∀ x, t.result = .ok x → UInt64.size ≤ steps.toNat + x.total) (k : α → Chronicle ε β)
    {w : Traced Mark (Except (r.mode ε).Failure (Counted β))}
    (hw : w.result = .error .stepOverflow) : r.Renders steps (t.bind k) w := by
  refine .overflowed hr ?_ hw
  rcases t with ⟨log, fault | x⟩
  · nofun
  · intro z hz
    obtain ⟨y, hy, rfl⟩ := exists_of_map_eq_ok hz
    have hle := hover x rfl
    rw [Account.total_behind]
    omega

/-- Going on from a value by way of what a function makes of it. -/
theorem bind_map {γ : Type} {g : α → γ} {c : Course (r.mode ε) γ}
    (h : r.Renders steps (t.map g) (c steps)) {k : α → Chronicle ε β}
    {l : γ → Course (r.mode ε) β} (hk : ∀ a sum, r.Renders sum (k a) (l (g a) sum)) :
    r.Renders steps (t.bind k) (c.andThen l steps) := by
  rw [Course.andThen]
  generalize hu : t.map g = u at h
  generalize c steps = w at h
  cases h with
  | @failed log result ms e hs =>
      have hlog : t.log = log := congrArg Traced.log hu
      rw [← hlog] at hs
      simp only [Traced.mk_ok_andThen, Traced.after, Traced.ret, Array.append_empty]
      exact bind_failed hs k
  | @returned log y ms sum hs hsum =>
      rcases t with ⟨log, fault | x⟩
      · cases hu
      · cases hu
        exact bind_returned (x := x) hs hsum (hk x.value sum)
  | @faulted log fault ms hs =>
      rcases t with ⟨log, fault | x⟩
      · cases hu
        exact .faulted hs
      · cases hu
  | overflowed hr hover hw =>
      subst hu
      refine bind_overflowed (t := t) hr (fun x hx => ?_) k (by simp [Traced.andThen, hw])
      exact hover _ (Chronicle.result_map hx g)

theorem bind {c : Course (r.mode ε) α} (h : r.Renders steps t (c steps)) {k : α → Chronicle ε β}
    {l : α → Course (r.mode ε) β} (hk : ∀ a sum, r.Renders sum (k a) (l a sum)) :
    r.Renders steps (t.bind k) (c.andThen l steps) := by
  rw [← t.map_id'] at h
  exact bind_map h hk

theorem map {c : Course (r.mode ε) α} (h : r.Renders steps t (c steps)) (f : α → β) :
    r.Renders steps (t.map f) (c.andThen (fun a => .ret (f a)) steps) := by
  rw [Chronicle.map_eq_bind]
  exact h.bind fun a sum => ret (f a)

/-- Happenings within a histogram carry the trials to come, and the course makes their splits. -/
theorem within (trials : Nat) {c : Course (r.mode ε) α} (h : r.Renders steps t (c steps)) :
    r.Renders steps (t.within trials) (c.within trials steps) := by
  have hsight {log : Array (Happening ε)} {s : Sight (r.mode ε).Failure} (hs : r.sight log = s) :
      r.sight (log.map (.within trials)) = s.within trials := by
    rw [sight_map_within, hs]
  rw [Course.within]
  generalize c steps = w at h
  cases h with
  | failed hs => exact .failed (hsight hs)
  | returned hs hsum =>
      simp only [Traced.mk_ok_andThen, Traced.after, Traced.ret, Array.append_empty]
      exact .returned (hsight hs) hsum
  | faulted hs => exact .faulted (hsight hs)
  | overflowed hr hover hw => exact .overflowed hr hover (by simp [Traced.andThen, hw])

/-! ## Effect steps -/

theorem perform_failed {log : Array (Happening ε)} {ms : Array Mark} {e : (r.mode ε).Failure}
    (hs : r.sight log = ⟨ms, some e⟩) (result : Except Fault (Account α)) :
    r.Renders steps ⟨log, result⟩
      (Course.perform ⟨ms, .ok ((r.mode ε).conclude (.error e))⟩ steps) := by
  simp only [Course.perform, Traced.mk_ok_andThen, Mode.charge_conclude_error, Traced.ofExcept,
    Traced.after, Array.append_empty]
  exact .failed hs

theorem perform_returned {log : Array (Happening ε)} {ms : Array Mark}
    (hs : r.sight log = ⟨ms, none⟩) (a : α) {count : UInt64} {n : Nat}
    (hcount : r = .counted → count.toNat = n) :
    r.Renders steps ⟨log, .ok ⟨a, [n]⟩⟩
      (Course.perform ⟨ms, .ok ((r.mode ε).conclude (.ok ⟨a, count⟩))⟩ steps) := by
  -- Where no steps are counted, the sum is not looked at.
  have hfree (hr : r ≠ .counted) : r.Renders steps ⟨log, .ok ⟨a, [n]⟩⟩
      ⟨ms ++ #[], .ok (.ok ⟨a, steps⟩)⟩ := by
    rw [Array.append_empty]
    exact .returned (x := ⟨a, [n]⟩) hs fun h => absurd h hr
  cases r with
  | plain => exact hfree nofun
  | checked => exact hfree nofun
  | counted =>
      obtain rfl := hcount rfl
      by_cases hfit : steps.toNat + count.toNat + 1 < UInt64.size
      · have hperform : Course.perform (F := .symbolic) ⟨ms, .ok ⟨a, count⟩⟩ steps =
            ⟨ms, .ok (.ok ⟨a, steps + count + 1⟩)⟩ := by
          simp [Course.perform, Mode.charge, sequenceSteps_of_lt hfit, Traced.ofExcept,
            Traced.after]
        refine hperform ▸ .returned (x := ⟨a, [count.toNat]⟩) hs fun _ => ?_
        exact toNat_sequenceSteps hfit
      · have hperform : (Course.perform (F := .symbolic) ⟨ms, .ok ⟨a, count⟩⟩ steps).result =
            .error .stepOverflow := by
          simp [Course.perform, Mode.charge, sequenceSteps_of_le (Nat.le_of_not_lt hfit),
            Traced.ofExcept]
        refine .overflowed rfl ?_ hperform
        rintro x hx
        cases hx
        rw [Account.total_singleton]
        omega

/-- What reports a chronicle makes one effect step of it when it is performed. -/
theorem collapse {u : Traced Mark ((r.mode ε).Result α)} (h : r.Reports t u) :
    r.Renders steps t.collapse (Course.perform u steps) := by
  obtain ⟨v, hv, rfl⟩ := h
  cases hv with
  | failed hs => exact perform_failed hs _
  | @returned log x ms sum hs hsum =>
      have hcount : r = .counted → sum.toNat = x.total := fun hr => by simpa using hsum hr
      exact perform_returned hs x.value hcount
  | faulted hs => exact .faulted hs
  | overflowed hr hover hv =>
      refine .overflowed hr (fun y hy => ?_) ?_
      · obtain ⟨x, hx, rfl⟩ := exists_of_map_eq_ok hy
        have hle : UInt64.size ≤ 0 + x.total := hover x hx
        rw [Account.total_singleton]
        omega
      · simp [Course.perform, Traced.andThen, hv, Except.map]

theorem perform (t : Traced Mark (Outcome ε α)) :
    r.Renders steps (Chronicle.perform t)
      (Course.perform (t.andThen fun o => .ret (r.wrap o)) steps) := by
  rcases t with ⟨log, fault | o⟩
  · exact .faulted (sight_map_mark log)
  · have hsight : r.sight (log.map .mark ++ (o.failure.map (.failure · 0)).toArray) =
        ⟨log, o.failure.bind r.heeds⟩ := by
      rw [sight_append_of_eq (sight_map_mark log) (sight_failure o.failure), Array.append_empty]
    have hwrapped : (⟨log, .ok o⟩ : Traced Mark (Outcome ε α)).andThen
        (fun o => .ret (r.wrap o)) = ⟨log, .ok (r.wrap o)⟩ := by
      simp [Traced.after, Traced.ret]
    rw [hwrapped]
    cases hheeds : o.failure.bind r.heeds with
    | some e =>
        rw [wrap_of_heeds hheeds]
        exact perform_failed (hsight.trans (by rw [hheeds])) _
    | none =>
        rw [wrap_of_not_heeds hheeds]
        exact perform_returned (hsight.trans (by rw [hheeds])) o.value fun _ => rfl

end Regime.Renders

namespace Regime

variable {ε α β : Type} {r : Regime} {t : Chronicle ε α}

theorem Renders.finish {c : Course (r.mode ε) α} (h : r.Renders 0 t (c 0)) :
    r.Reports t (c.finish 0) := by
  refine ⟨c 0, h, ?_⟩
  rw [Course.finish, Course.into]
  rcases c 0 with ⟨log, fault | e | x⟩
  · rfl
  · simp [Traced.after, Traced.ret, Except.map]
  · simp [Traced.after, Traced.ret, Except.map]

theorem Reports.map {u : Traced Mark ((r.mode ε).Result α)} (h : r.Reports t u) (f : α → β) :
    r.Reports (t.map f) (u.andThen fun wrapped => .ret ((r.mode ε).map f wrapped)) := by
  obtain ⟨v, hv, rfl⟩ := h
  refine ⟨_, hv.map (c := fun _ => v) f, ?_⟩
  simp only [Course.andThen]
  rcases v with ⟨log, fault | e | x⟩
  · rfl
  · simp [Traced.after, Traced.ret, Except.map, Mode.map_conclude_error]
  · simp [Course.ret, Traced.after, Traced.ret, Except.map, Mode.map_conclude_ok]

end Regime

end Aleatory
