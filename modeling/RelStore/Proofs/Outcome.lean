import Mathlib.Data.List.Forall2

/-!
# Outcomes that may be errors

The operations of tables are computations that end in an error or go on. What is known of such a
computation when it ends well: every step of it has (`bind_eq_ok`), also in a loop that collects
results (`mapM_eq_ok`) and in one that carries a state (`foldlM_invariant`). Two computations may
end alike without being the same (`Agree`), and so may searches in lists whose items are related one
by one (`find?_rel`, `findSome?_eq`).
-/

namespace RelStore.Outcome

variable {ε α β : Type}

/-- After a step that ends well comes the next one. -/
theorem ok_bind (a : α) (f : α → Except ε β) : Except.ok a >>= f = f a := rfl

/-- A computation that ends well has a result. -/
theorem exists_of_isOk {x : Except ε α} (h : x.isOk = true) : ∃ a, x = .ok a := by
  cases x with
  | error e => cases h
  | ok a => exact ⟨a, rfl⟩

/-- Two steps end well when the first does and the second does with its result. -/
theorem bind_eq_ok {x : Except ε α} {f : α → Except ε β} {b : β} :
    x >>= f = .ok b ↔ ∃ a, x = .ok a ∧ f a = .ok b := by
  cases x with
  | error e => exact ⟨nofun, fun ⟨_, h, _⟩ => nomatch h⟩
  | ok a => exact ⟨fun h => ⟨a, rfl, h⟩, fun ⟨_, h, hf⟩ => by cases h; exact hf⟩

/-- Two steps end in an error when the first does, or the second with the result of the first. -/
theorem bind_eq_error {x : Except ε α} {f : α → Except ε β} {e : ε} :
    x >>= f = .error e ↔ x = .error e ∨ ∃ a, x = .ok a ∧ f a = .error e := by
  cases x with
  | error e' =>
    constructor
    · exact fun h => .inl (congrArg Except.error (Except.error.inj h))
    · rintro (h | ⟨_, h, -⟩)
      · exact congrArg Except.error (Except.error.inj h)
      · cases h
  | ok a =>
    constructor
    · exact fun h => .inr ⟨a, rfl, h⟩
    · rintro (h | ⟨_, h, hf⟩)
      · cases h
      · cases h
        exact hf

/-- Steps do not end with what the last of them cannot end with. -/
theorem bind_ne_ok {x : Except ε α} {f : α → Except ε β} {b : β} (h : ∀ a, f a ≠ .ok b) :
    x >>= f ≠ .ok b := by
  intro hok
  obtain ⟨a, -, ha⟩ := bind_eq_ok.mp hok
  exact h a ha

/-- A step followed by a function ends well when it does. -/
theorem map_eq_ok {x : Except ε α} {f : α → β} {b : β} :
    f <$> x = .ok b ↔ ∃ a, x = .ok a ∧ f a = b := by
  cases x with
  | error e => exact ⟨nofun, fun ⟨_, h, _⟩ => nomatch h⟩
  | ok a => exact ⟨fun h => ⟨a, rfl, Except.ok.inj h⟩, fun ⟨_, h, hf⟩ => by cases h; rw [← hf]; rfl⟩

/-- What is refused under a condition ends well when the condition fails and the rest does. -/
theorem unless_eq_ok {c : Prop} [Decidable c] {e : ε} {x : Except ε β} {b : β} :
    (if c then throw e >>= fun _ : PUnit => x else x) = .ok b ↔ ¬c ∧ x = .ok b := by
  by_cases h : c
  · rw [if_pos h]
    exact ⟨nofun, fun hnot => absurd h hnot.1⟩
  · rw [if_neg h]
    exact ⟨fun hx => ⟨h, hx⟩, And.right⟩

/-- A loop that collects results ends well when each of its steps does. -/
theorem mapM_eq_ok {f : α → Except ε β} {xs : List α} {ys : List β} :
    xs.mapM f = .ok ys ↔ List.Forall₂ (fun x y => f x = .ok y) xs ys := by
  induction xs generalizing ys with
  | nil =>
    rw [List.mapM_nil, List.forall₂_nil_left_iff]
    exact ⟨fun h => (Except.ok.inj h).symm, fun h => by rw [h]; rfl⟩
  | cons x xs ih =>
    rw [List.mapM_cons, bind_eq_ok, List.forall₂_cons_left_iff]
    constructor
    · rintro ⟨y, hy, hrest⟩
      obtain ⟨rest, hrest, hys⟩ := bind_eq_ok.mp hrest
      exact ⟨y, rest, hy, ih.mp hrest, (Except.ok.inj hys).symm⟩
    · rintro ⟨y, rest, hy, hrest, rfl⟩
      exact ⟨y, hy, bind_eq_ok.mpr ⟨rest, ih.mpr hrest, rfl⟩⟩

/-- Loops that do the same with each of the items end the same. -/
theorem mapM_congr {f g : α → Except ε β} {xs : List α} (h : ∀ x ∈ xs, f x = g x) :
    xs.mapM f = xs.mapM g := by
  induction xs with
  | nil => rfl
  | cons x xs ih =>
    rw [List.mapM_cons, List.mapM_cons, h x List.mem_cons_self,
      ih fun y hy => h y (List.mem_cons_of_mem _ hy)]

/-- A loop that gets a result from everything that has been made of some items gets all of them. -/
theorem mapM_map {γ : Type} {make : α → β} {get? : β → Option γ} {result : α → γ} {items : List α}
    (h : ∀ item ∈ items, get? (make item) = some (result item)) :
    (items.map make).mapM get? = some (items.map result) := by
  induction items with
  | nil => rfl
  | cons item items ih =>
    obtain ⟨hitem, hitems⟩ := List.forall_mem_cons.mp h
    rw [List.map_cons, List.mapM_cons, hitem, ih hitems]
    rfl

/-- A loop of checks ends well when all of them are passed. -/
theorem forM_eq_ok {check : α → Except ε Unit} {xs : List α} :
    xs.forM check = .ok () ↔ ∀ x ∈ xs, check x = .ok () := by
  induction xs with
  | nil => exact iff_of_true rfl (List.forall_mem_nil _)
  | cons x xs ih =>
    have hcons : (x :: xs).forM check = (check x >>= fun _ => xs.forM check) := rfl
    rw [hcons, bind_eq_ok, List.forall_mem_cons, ← ih]
    exact ⟨fun ⟨_, hx, hxs⟩ => ⟨hx, hxs⟩, fun ⟨hx, hxs⟩ => ⟨(), hx, hxs⟩⟩

/-- A loop that collects results ends in the error of one of its steps. -/
theorem exists_of_mapM_eq_error {f : α → Except ε β} {xs : List α} {e : ε}
    (h : xs.mapM f = .error e) : ∃ x ∈ xs, f x = .error e := by
  induction xs with
  | nil => cases h
  | cons x xs ih =>
    rw [List.mapM_cons] at h
    rcases bind_eq_error.mp h with h | ⟨y, -, h⟩
    · exact ⟨x, List.mem_cons_self, h⟩
    · rcases bind_eq_error.mp h with h | ⟨ys, -, h⟩
      · obtain ⟨x', hx', h⟩ := ih h
        exact ⟨x', List.mem_cons_of_mem _ hx', h⟩
      · cases h

/-- A loop that carries a state ends in the error of one of its steps. -/
theorem exists_of_foldlM_eq_error {f : β → α → Except ε β} {xs : List α} {b : β} {e : ε}
    (h : xs.foldlM f b = .error e) : ∃ b', ∃ x ∈ xs, f b' x = .error e := by
  induction xs generalizing b with
  | nil => cases h
  | cons x xs ih =>
    rw [List.foldlM_cons] at h
    rcases bind_eq_error.mp h with h | ⟨b', -, h⟩
    · exact ⟨b, x, List.mem_cons_self, h⟩
    · obtain ⟨b'', x', hx', h⟩ := ih h
      exact ⟨b'', x', List.mem_cons_of_mem _ hx', h⟩

/-- What every step of a loop keeps holds of the state in which the loop ends well. -/
theorem foldlM_invariant {f : β → α → Except ε β} {xs : List α} (inv : β → Prop)
    (hstep : ∀ b, ∀ x ∈ xs, ∀ b', inv b → f b x = .ok b' → inv b') {b b' : β} (hb : inv b)
    (h : xs.foldlM f b = .ok b') : inv b' := by
  induction xs generalizing b with
  | nil =>
    cases h
    exact hb
  | cons x xs ih =>
    rw [List.foldlM_cons] at h
    obtain ⟨next, hnext, hrest⟩ := bind_eq_ok.mp h
    refine ih (fun b x hx => hstep b x (List.mem_cons_of_mem _ hx)) ?_ hrest
    exact hstep b x List.mem_cons_self next hb hnext

/-- What one step of a loop brings about and every step keeps holds in the end. -/
theorem foldlM_of_mem {f : β → α → Except ε β} {xs : List α} (goal : β → Prop) {x : α}
    (hx : x ∈ xs) (hnew : ∀ b b', f b x = .ok b' → goal b')
    (hkeep : ∀ b, ∀ y ∈ xs, ∀ b', goal b → f b y = .ok b' → goal b') {b b' : β}
    (h : xs.foldlM f b = .ok b') : goal b' := by
  -- The step at the element brings the goal about, and those behind it keep it.
  obtain ⟨before, after, rfl⟩ := List.append_of_mem hx
  rw [List.foldlM_append] at h
  obtain ⟨mid, -, h⟩ := bind_eq_ok.mp h
  rw [List.foldlM_cons] at h
  obtain ⟨next, hnext, h⟩ := bind_eq_ok.mp h
  refine foldlM_invariant goal (fun b y hy => hkeep b y ?_) (hnew mid next hnext) h
  exact List.mem_append_right _ (List.mem_cons_of_mem _ hy)

/-- Two computations end alike: with the same error, or with results that are related. -/
inductive Agree (related : α → β → Prop) : Except ε α → Except ε β → Prop where
  /-- Both end with the same error. -/
  | error (e : ε) : Agree related (.error e) (.error e)
  /-- Both end well. -/
  | ok {a : α} {b : β} (h : related a b) : Agree related (.ok a) (.ok b)

/-- Computations that end alike end so in another sense if all results they can have do. -/
theorem Agree.imp {related related' : α → β → Prop} {x : Except ε α} {y : Except ε β}
    (h : Agree related x y)
    (himp : ∀ a b, x = .ok a → y = .ok b → related a b → related' a b) : Agree related' x y := by
  cases h with
  | error e => exact .error e
  | ok hab => exact .ok (himp _ _ rfl rfl hab)

/-- Computations that end alike with the same results are the same. -/
theorem Agree.eq {x y : Except ε α} (h : Agree Eq x y) : x = y := by
  cases h with
  | error e => rfl
  | ok hab => rw [hab]

/-- Computations that end alike go on alike. -/
theorem Agree.bind {γ δ : Type} {related : α → β → Prop} {related' : γ → δ → Prop}
    {x : Except ε α} {y : Except ε β} (h : Agree related x y) {f : α → Except ε γ}
    {g : β → Except ε δ} (hnext : ∀ a b, related a b → Agree related' (f a) (g b)) :
    Agree related' (x >>= f) (y >>= g) := by
  cases h with
  | error e => exact .error e
  | ok hab => exact hnext _ _ hab

/-- Computations that end alike and then do the same are the same. -/
theorem Agree.bind_eq {γ : Type} {related : α → β → Prop} {x : Except ε α} {y : Except ε β}
    (h : Agree related x y) {f : α → Except ε γ} {g : β → Except ε γ}
    (hnext : ∀ a b, related a b → f a = g b) : x >>= f = y >>= g := by
  cases h with
  | error e => rfl
  | ok hab => exact hnext _ _ hab

/-- Loops whose steps end alike end alike. -/
theorem Agree.mapM {ι : Type} {related : α → β → Prop} {f : ι → Except ε α} {g : ι → Except ε β}
    (h : ∀ i, Agree related (f i) (g i)) (is : List ι) :
    Agree (List.Forall₂ related) (is.mapM f) (is.mapM g) := by
  induction is with
  | nil => exact .ok .nil
  | cons i rest ih =>
    rw [List.mapM_cons, List.mapM_cons]
    exact (h i).bind fun a b hab => ih.bind fun as bs hrest => .ok (.cons hab hrest)

/-- Loops that carry a state end alike when their steps do. -/
theorem Agree.foldlM {ι : Type} {related : α → β → Prop} {f : α → ι → Except ε α}
    {g : β → ι → Except ε β} (h : ∀ a b i, related a b → Agree related (f a i) (g b i))
    (is : List ι) {a : α} {b : β} (hab : related a b) :
    Agree related (is.foldlM f a) (is.foldlM g b) := by
  induction is generalizing a b with
  | nil => exact .ok hab
  | cons i rest ih =>
    rw [List.foldlM_cons, List.foldlM_cons]
    exact (h a b i hab).bind fun a b hab => ih hab

/-- Computations of which the results are the same to some functions end alike. -/
theorem Agree.of_map_eq {γ : Type} {x : Except ε α} {y : Except ε β} {f : α → γ} {g : β → γ}
    (h : f <$> x = g <$> y) : Agree (fun a b => f a = g b) x y := by
  cases x with
  | error e =>
    cases y with
    | error e' =>
      cases h
      exact .error e
    | ok b => cases h
  | ok a =>
    cases y with
    | error e => cases h
    | ok b => exact .ok (Except.ok.inj h)

/-- After the same computation, computations that go on alike end alike. -/
theorem Agree.bind_of_eq {γ δ : Type} {related : γ → δ → Prop} {x y : Except ε α} (hxy : y = x)
    {f : α → Except ε γ} {g : α → Except ε δ}
    (hnext : ∀ a, x = .ok a → Agree related (f a) (g a)) :
    Agree related (x >>= f) (y >>= g) := by
  subst hxy
  cases y with
  | error e => exact .error e
  | ok a => exact hnext a rfl

/-! ## Searches -/

/-- Searches in lists whose items are related one by one find related items, or none on either
side, if they look for items that are related. -/
theorem find?_rel {related : α → β → Prop} {xs : List α} {ys : List β}
    (h : List.Forall₂ related xs ys) {p : α → Bool} {q : β → Bool}
    (hpq : ∀ x ∈ xs, ∀ y ∈ ys, related x y → q y = p x) :
    Option.Rel related (xs.find? p) (ys.find? q) := by
  induction h with
  | nil => exact .none
  | cons hfirst _ ih =>
    rw [List.find?_cons, List.find?_cons,
      hpq _ List.mem_cons_self _ List.mem_cons_self hfirst]
    split
    · exact .some hfirst
    · exact ih fun x hx y hy => hpq x (List.mem_cons_of_mem _ hx) y (List.mem_cons_of_mem _ hy)

/-- Searches in lists whose items are related one by one have the same result, if they make the same
of items that are related. -/
theorem findSome?_eq {γ : Type} {related : α → β → Prop} {xs : List α} {ys : List β}
    (h : List.Forall₂ related xs ys) {f : α → Option γ} {g : β → Option γ}
    (hfg : ∀ x ∈ xs, ∀ y ∈ ys, related x y → g y = f x) : ys.findSome? g = xs.findSome? f := by
  induction h with
  | nil => rfl
  | cons hfirst _ ih =>
    rw [List.findSome?_cons, List.findSome?_cons,
      hfg _ List.mem_cons_self _ List.mem_cons_self hfirst,
      ih fun x hx y hy => hfg x (List.mem_cons_of_mem _ hx) y (List.mem_cons_of_mem _ hy)]

end RelStore.Outcome
