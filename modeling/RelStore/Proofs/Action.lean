import RelStore.Action
import RelStore.Proofs.Outcome

/-!
# What actions leave

Actions are carried out one step after the other (`on_bind`), and a computation without a state that
is a step of them leaves the state (`on_lift_bind`). An action is all or nothing on a state when it
ends as a computation that gives the new state does, and a failure leaves the state as it was
(`settled`): checks may come before such an action, and whatever comes behind it must not fail.
-/

namespace RelStore.Action

variable {σ τ α β : Type}

/-- An action that is described does what the description says. -/
theorem on_of (f : σ → Except Error α × σ) (s : σ) : (Action.of f).on s = f s := rfl

/-- A change of the state is a step that does not fail. -/
theorem on_modify_bind (change : σ → σ) (next : PUnit → Action σ α) (s : σ) :
    on (modify change >>= next) s = on (next ⟨⟩) (change s) := rfl

/-- Putting another state in place of the state is a step that does not fail. -/
theorem on_set_bind (after : σ) (next : PUnit → Action σ α) (s : σ) :
    on (set after >>= next) s = on (next ⟨⟩) after := rfl

/-- Looking at the state leaves it. -/
theorem on_get_bind (next : σ → Action σ α) (s : σ) : on (get >>= next) s = on (next s) s := rfl

/-- Steps are carried out one after the other until one fails. -/
theorem on_bind (act : Action σ α) (next : α → Action σ β) (s : σ) :
    on (act >>= next) s =
      match act.on s with
      | (.ok a, s) => on (next a) s
      | (.error error, s) => (.error error, s) := by
  cases h : act.on s with
  | mk outcome after =>
    unfold on ExceptT.run StateT.run at h ⊢
    simp only [bind, ExceptT.bind, ExceptT.mk, StateT.bind, ExceptT.bindCont, h]
    cases outcome <;> rfl

/-- A computation without a state leaves the state. -/
theorem on_lift_bind (x : Except Error α) (next : α → Action σ β) (s : σ) :
    on (liftM x >>= next) s =
      match x with
      | .ok a => on (next a) s
      | .error error => (.error error, s) := by
  cases x <;> rfl

/-- After a step that succeeds come the next ones. -/
theorem on_bind_of_ok {act : Action σ α} {s after : σ} {a : α} (h : act.on s = (.ok a, after))
    (next : α → Action σ β) : on (act >>= next) s = on (next a) after := by
  rw [on_bind, h]

/-- Steps that succeed have done so one after the other. -/
theorem on_bind_eq_ok {act : Action σ α} {next : α → Action σ β} {s last : σ} {b : β} :
    on (act >>= next) s = (.ok b, last) ↔
      ∃ a mid, act.on s = (.ok a, mid) ∧ (next a).on mid = (.ok b, last) := by
  rw [on_bind]
  cases act.on s with
  | mk outcome after => cases outcome <;> simp

/-- What an action fails with can be looked at, and it leaves its state all the same. -/
theorem on_observing_bind (act : Action σ α) (next : Except Error α → Action σ β) (s : σ) :
    on (observing act >>= next) s = on (next (act.on s).1) (act.on s).2 := by
  have hon : on (observing act) s = (.ok (act.on s).1, (act.on s).2) := by
    cases h : act.on s with
    | mk outcome after =>
      unfold on ExceptT.run StateT.run at h ⊢
      simp only [observing, tryCatch, tryCatchThe, MonadExceptOf.tryCatch, ExceptT.tryCatch, bind,
        ExceptT.bind, ExceptT.mk, StateT.bind, ExceptT.bindCont, h]
      cases outcome <;> rfl
  exact on_bind_of_ok hon next

/-- An action on a part of the state changes this part. -/
theorem on_within (part : σ → τ) (put : τ → σ → σ) (act : Action τ α) (s : σ) :
    (within part put act).on s = ((act.on (part s)).1, put (act.on (part s)).2 s) := rfl

/-- Items on which an action does not fail become what it makes of them. -/
theorem onAll_eq_map {act : Action σ Unit} {change : σ → σ} {items : List σ}
    (h : ∀ item ∈ items, act.on item = (.ok (), change item)) :
    act.onAll items = (.ok (), items.map change) := by
  induction items with
  | nil => rfl
  | cons item rest ih =>
    obtain ⟨hitem, hrest⟩ := List.forall_mem_cons.mp h
    rw [onAll, hitem]
    dsimp only
    rw [ih hrest]
    rfl

/-- What an action ends in that is all or nothing: it leaves the new state of a computation, or the
state as it was. -/
def settled (s : σ) : Except Error (α × σ) → Except Error α × σ
  | .ok (a, after) => (.ok a, after)
  | .error error => (.error error, s)

/-- A check in front of an action that is all or nothing makes one that is. -/
theorem on_lift_bind_settled {x : Except Error β} {next : β → Action σ α}
    {rest : β → Except Error (α × σ)} {s : σ}
    (h : ∀ b, x = .ok b → on (next b) s = settled s (rest b)) :
    on (liftM x >>= next) s = settled s (x >>= rest) := by
  rw [on_lift_bind]
  cases x with
  | error error => rfl
  | ok b => exact h b rfl

/-- An action that is all or nothing stays so without its result. -/
theorem on_discard_settled {act : Action σ α} {x : Except Error (α × σ)} {s : σ}
    (h : act.on s = settled s x) :
    on (discard act) s = settled s ((fun next => ((), next)) <$> (Prod.snd <$> x)) := by
  have hdiscard : on (discard act) s = on (act >>= fun _ => pure ()) s := rfl
  rw [hdiscard, on_bind, h]
  cases x <;> rfl

/-! ## Actions on items one after the other -/

section

variable {f : α → Action σ β} {s mid last : σ}

/-- An action that succeeds on an item, and then on the other ones, does so on all. -/
theorem on_mapM_cons {a : α} {b : β} {rest : List α} {bs : List β} (h : (f a).on s = (.ok b, mid))
    (hrest : (rest.mapM f).on mid = (.ok bs, last)) :
    ((a :: rest).mapM f).on s = (.ok (b :: bs), last) := by
  rw [List.mapM_cons, on_bind_of_ok h, on_bind_of_ok hrest]
  rfl

/-- There are as many results as items. -/
theorem length_of_mapM_on {as : List α} {bs : List β} (h : (as.mapM f).on s = (.ok bs, last)) :
    bs.length = as.length := by
  induction as generalizing s bs with
  | nil =>
    cases h
    rfl
  | cons a rest ih =>
    rw [List.mapM_cons] at h
    obtain ⟨b, mid, -, h⟩ := on_bind_eq_ok.mp h
    obtain ⟨later, _, hlater, h⟩ := on_bind_eq_ok.mp h
    cases h
    rw [List.length_cons, List.length_cons, ih hlater]

end

/-! ## What actions keep -/

/-- An action leaves a part of the state as it was, whether it fails or not. -/
def Keeps (part : σ → τ) (act : Action σ α) : Prop := ∀ s, part (act.on s).2 = part s

namespace Keeps

variable {part : σ → τ}

/-- A result changes nothing. -/
theorem pure (a : α) : Keeps part (Pure.pure a) := fun _ => rfl

/-- An error changes nothing. -/
theorem throw (error : Error) : Keeps part (MonadExcept.throw error : Action σ α) := fun _ => rfl

/-- Looking at the state changes nothing. -/
theorem get : Keeps part (MonadState.get : Action σ σ) := fun _ => rfl

/-- A computation without a state changes nothing. -/
theorem lift (x : Except Error α) : Keeps part (liftM x : Action σ α) := by
  intro s
  cases x <;> rfl

/-- A change of the state keeps what it does not concern. -/
theorem modify {change : σ → σ} (h : ∀ s, part (change s) = part s) :
    Keeps part (modify change : Action σ PUnit) := h

/-- An action on one part of the state keeps what this part does not concern. -/
theorem within {ρ : Type} {focus : σ → ρ} {put : ρ → σ → σ} (h : ∀ r s, part (put r s) = part s)
    (act : Action ρ α) : Keeps part (Action.within focus put act) := fun s => h _ s

/-- Actions that keep something do so one after the other. -/
theorem bind {act : Action σ α} {next : α → Action σ β} (h : Keeps part act)
    (hnext : ∀ a, Keeps part (next a)) : Keeps part (act >>= next) := by
  intro s
  rw [on_bind]
  cases hact : act.on s with
  | mk outcome after =>
    have hafter : part after = part s := by rw [← h s, hact]
    cases outcome with
    | error error => exact hafter
    | ok a => exact (hnext a after).trans hafter

/-- What an action keeps it keeps when its failure is looked at. -/
theorem observing {act : Action σ α} (h : Keeps part act) :
    Keeps part (observing act : Action σ (Except Error α)) := by
  intro s
  have hobserving := on_observing_bind act Pure.pure s
  rw [bind_pure] at hobserving
  rw [hobserving]
  exact h s

end Keeps

end RelStore.Action
