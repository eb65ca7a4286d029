import VarRecovery.Recovering

/-!
Chains of recovery steps that succeed: each step of them succeeded.
-/

set_option autoImplicit false

namespace VarRecovery.Recovering

variable {α β : Type} {ws stop : List Warning}

theorem bind_eq_ok {ε : Type} {x : Except ε α} {f : α → Except ε β} {b : β}
    (h : (x >>= f) = .ok b) : ∃ a, x = .ok a ∧ f a = .ok b := by
  cases x with
  | ok a => exact ⟨a, rfl, h⟩
  | error e => cases h

theorem bind_eq_error {ε : Type} {x : Except ε α} {f : α → Except ε β} {e : ε} (h : (x >>= f) = .error e) :
    x = .error e ∨ ∃ a, x = .ok a ∧ f a = .error e := by
  cases x with
  | ok a => exact .inr ⟨a, rfl, h⟩
  | error other =>
    cases h
    exact .inl rfl

theorem ok_of_toOption {ε : Type} {x : Except ε α} {a : α} (h : x.toOption = some a) : x = .ok a := by
  cases x with
  | ok b => exact congrArg Except.ok (Option.some.inj h)
  | error e => cases h

/-- What a loop keeps that may fail, if each step that succeeds keeps it. -/
theorem foldlM_eq_ok {σ : Type} {step : σ → α → Except RecoveryError σ} {motive : σ → Prop} {xs : List α}
    {s t : σ} (start : motive s) (next : ∀ x a b, x ∈ xs → motive a → step a x = .ok b → motive b)
    (h : xs.foldlM step s = .ok t) : motive t := by
  induction xs generalizing s with
  | nil => cases h; exact start
  | cons x xs ih =>
    rw [List.foldlM_cons] at h
    obtain ⟨a, first, rest⟩ := bind_eq_ok h
    exact ih (next x s a List.mem_cons_self start first)
      (fun y b c member => next y b c (List.mem_cons_of_mem x member)) rest

/-- A loop whose steps each add some elements adds them all in the end. -/
theorem foldlM_eq_foldl {ε σ α β : Type} {step : σ → α → Except ε σ} {add : σ → β → σ} {Q : α → Prop} {xs : List α}
    {s t : σ} (part : α → List β) (each : ∀ x ∈ xs, ∀ a b, step a x = .ok b → Q x ∧ b = (part x).foldl add a)
    (h : xs.foldlM step s = .ok t) : (∀ x ∈ xs, Q x) ∧ t = (xs.flatMap part).foldl add s := by
  induction xs generalizing s with
  | nil =>
    cases h
    exact ⟨nofun, rfl⟩
  | cons x xs ih =>
    rw [List.foldlM_cons] at h
    obtain ⟨a, first, rest⟩ := bind_eq_ok h
    obtain ⟨here, others⟩ := List.forall_mem_cons.mp each
    obtain ⟨done, rfl⟩ := here s a first
    obtain ⟨all, rfl⟩ := ih others rest
    exact ⟨List.forall_mem_cons.mpr ⟨done, all⟩, by rw [List.flatMap_cons, List.foldl_append]⟩

theorem mapM_ok {ε : Type} {look : α → Except ε β} {xs : List α} {ys : List β} (h : xs.mapM look = .ok ys) {x : α}
    (member : x ∈ xs) : ∃ y ∈ ys, look x = .ok y := by
  induction xs generalizing ys with
  | nil => cases member
  | cons first xs ih =>
    rw [List.mapM_cons] at h
    obtain ⟨y, here, h⟩ := bind_eq_ok h
    obtain ⟨zs, rest, done⟩ := bind_eq_ok h
    cases done
    rcases List.mem_cons.mp member with rfl | inside
    · exact ⟨y, List.mem_cons_self, here⟩
    · obtain ⟨z, among, same⟩ := ih rest inside
      exact ⟨z, List.mem_cons_of_mem _ among, same⟩

theorem mapM_eq_map {ε : Type} {look : α → Except ε β} {found : α → β} {xs : List α}
    (each : ∀ x ∈ xs, look x = .ok (found x)) : xs.mapM look = .ok (xs.map found) := by
  induction xs with
  | nil => rfl
  | cons x xs ih =>
    obtain ⟨here, rest⟩ := List.forall_mem_cons.mp each
    rw [List.mapM_cons, here, ih rest]
    rfl

/-- The first failure among some is that of all. -/
theorem mapM_eq_error {ε : Type} {look : α → Except ε β} {xs : List α} {e : ε} : xs.mapM look = .error e ↔
    ∃ before x after, xs = before ++ x :: after ∧ look x = .error e ∧ ∀ y ∈ before, ∃ b, look y = .ok b := by
  induction xs with
  | nil => simp [pure, Except.pure]
  | cons x xs ih =>
    rw [List.mapM_cons]
    cases here : look x with
    | error e' =>
      constructor
      · intro same
        cases same
        exact ⟨[], x, xs, rfl, here, nofun⟩
      · rintro ⟨before, y, after, same, failed, passed⟩
        cases before with
        | nil =>
          cases same
          cases here.symm.trans failed
          rfl
        | cons z before =>
          cases same
          obtain ⟨b, looked⟩ := passed x List.mem_cons_self
          cases here.symm.trans looked
    | ok b =>
      have rest : (do let bs ← xs.mapM look; pure (b :: bs)) = (.error e : Except ε (List β)) ↔ xs.mapM look = .error e := by
        cases xs.mapM look <;> simp [bind, Except.bind, pure, Except.pure]
      refine (rest.trans ih).trans ⟨?_, ?_⟩
      · rintro ⟨before, y, after, rfl, failed, passed⟩
        exact ⟨x :: before, y, after, rfl, failed, List.forall_mem_cons.mpr ⟨⟨b, here⟩, passed⟩⟩
      · rintro ⟨before, y, after, same, failed, passed⟩
        cases before with
        | nil =>
          cases same
          cases here.symm.trans failed
        | cons z before =>
          cases same
          exact ⟨before, y, after, rfl, failed, (List.forall_mem_cons.mp passed).2⟩

theorem bind_ok {x : Recovering α} {f : α → Recovering β} {b : β}
    (h : (x >>= f).run.run ws = (.ok b, stop)) :
    ∃ a mid, x.run.run ws = (.ok a, mid) ∧ (f a).run.run mid = (.ok b, stop) := by
  rcases first : x.run.run ws with ⟨result, mid⟩
  rw [ExceptT.run_bind, StateT.run_bind, first] at h
  cases result with
  | ok a => exact ⟨a, mid, rfl, h⟩
  | error e => cases h

theorem run_bind {x : Recovering α} {a : α} (first : x.run.run ws = (.ok a, stop)) (f : α → Recovering β) :
    (x >>= f).run.run ws = (f a).run.run stop := by
  rw [ExceptT.run_bind, StateT.run_bind, first]
  rfl

theorem run_warnAll (ws new : List Warning) : (warnAll new).run.run ws = (.ok (), ws ++ new) := rfl

theorem warnings_ok {x : Recovering α} {a : α} (h : x.warnings.1 = .ok a) :
    ∃ stop, x.run.run [] = (.ok a, stop) :=
  ⟨x.warnings.2, Prod.ext h rfl⟩

theorem lift_ok {x : Except RecoveryError α} {a : α}
    (h : (liftM x : Recovering α).run.run ws = (.ok a, stop)) : x = .ok a ∧ stop = ws := by
  cases x with
  | ok b => cases h; exact ⟨rfl, rfl⟩
  | error e => cases h

theorem pure_ok {a b : α} (h : (pure a : Recovering α).run.run ws = (.ok b, stop)) :
    a = b ∧ stop = ws := by
  cases h
  exact ⟨rfl, rfl⟩

/-- What a loop over steps reaches, if each step that succeeds goes on from what was reached before it. -/
theorem foldlM_ok {σ : Type} {step : σ → α → Recovering σ} {motive : List α → σ → Prop}
    {xs : List α} {s t : σ} (start : motive [] s)
    (next : ∀ done x a b ws stop, x ∈ xs → motive done a →
      (step a x).run.run ws = (.ok b, stop) → motive (done ++ [x]) b)
    (h : (xs.foldlM step s).run.run ws = (.ok t, stop)) : motive xs t := by
  have general (rest done : List α) (inside : ∀ x ∈ rest, x ∈ xs) (a : σ) (ws : List Warning)
      (reached : motive done a) (h : (rest.foldlM step a).run.run ws = (.ok t, stop)) :
      motive (done ++ rest) t := by
    induction rest generalizing done a ws with
    | nil =>
      rw [List.foldlM_nil] at h
      obtain ⟨rfl, -⟩ := pure_ok h
      simpa using reached
    | cons x rest ih =>
      rw [List.foldlM_cons] at h
      obtain ⟨b, mid, first, others⟩ := bind_ok h
      have following := next done x a b ws mid (inside x List.mem_cons_self) reached first
      simpa using ih (done ++ [x]) (fun y member => inside y (List.mem_cons_of_mem _ member)) b mid
        following others
  simpa using general xs [] (fun _ member => member) s ws start h

end VarRecovery.Recovering
