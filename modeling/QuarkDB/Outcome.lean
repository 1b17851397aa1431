-- Commands that change a state and may fail: what a command yields, and one rule
-- for each way to build a command. A list of commands refines an abstract machine when
-- each of them does.
import Mathlib

namespace Outcome

variable {σ ε α β : Type}

/-- The command, run on `s`, ends in what `post` allows, or fails in a way that `fault`
allows. -/
def Yields (c : StateT σ (Except ε) α) (s : σ) (post : α → σ → Prop) (fault : ε → Prop) : Prop :=
  match c s with
  | .ok (a, s') => post a s'
  | .error e => fault e

variable {c : StateT σ (Except ε) α} {s : σ} {post : α → σ → Prop} {fault : ε → Prop}

theorem Yields.of_ok (h : Yields c s post fault) {a : α} {s' : σ} (hc : c s = .ok (a, s')) :
    post a s' := by
  unfold Yields at h
  rw [hc] at h
  exact h

theorem Yields.of_error (h : Yields c s post fault) {e : ε} (hc : c s = .error e) : fault e := by
  unfold Yields at h
  rw [hc] at h
  exact h

/-- What a run comes to, from what is seen of it. -/
theorem exists_of_map_ok {x : Except ε α} {f : α → β} {b : β} (h : x.map f = .ok b) :
    ∃ a, x = .ok a ∧ f a = b := by
  cases x with
  | error e => cases h
  | ok a => exact ⟨a, rfl, Except.ok.inj h⟩

theorem eq_error_of_map {x : Except ε α} {f : α → β} {e : ε} (h : x.map f = .error e) :
    x = .error e := by
  cases x with
  | error e' => exact congrArg Except.error (Except.error.inj h)
  | ok a => cases h

/-- A command that can not fail comes to something. -/
theorem Yields.exists_ok (h : Yields c s post fun _ => False) :
    ∃ a s', c s = .ok (a, s') ∧ post a s' := by
  unfold Yields at h
  split at h
  · rename_i a s' hc
    exact ⟨a, s', hc, h⟩
  · exact h.elim

/-- A command that can not come to anything fails. -/
theorem Yields.exists_error (h : Yields c s (fun _ _ => False) fault) :
    ∃ e, c s = .error e ∧ fault e := by
  unfold Yields at h
  split at h
  · exact h.elim
  · rename_i e hc
    exact ⟨e, hc, h⟩

theorem Yields.mono {post' : α → σ → Prop} (h : Yields c s post fault)
    (hp : ∀ a s', post a s' → post' a s') : Yields c s post' fault := by
  unfold Yields at h ⊢
  split at h
  · exact hp _ _ h
  · exact h

/-- More failures may be allowed. -/
theorem Yields.weaken {fault' : ε → Prop} (h : Yields c s post fault)
    (hf : ∀ e, fault e → fault' e) : Yields c s post fault' := by
  unfold Yields at h ⊢
  split at h
  · exact h
  · exact hf _ h

/-- Two facts about the same run hold together. -/
theorem Yields.and {post' : α → σ → Prop} {fault' : ε → Prop} (h : Yields c s post fault)
    (h' : Yields c s post' fault') : Yields c s (fun a s' => post a s' ∧ post' a s') fault := by
  unfold Yields at h h' ⊢
  generalize c s = r at h h' ⊢
  rcases r with e | ⟨a, s'⟩
  · exact h
  · exact ⟨h, h'⟩

/-- What a command ended in is what it came to. -/
theorem Yields.and_ran (h : Yields c s post fault) :
    Yields c s (fun a s' => post a s' ∧ c s = .ok (a, s')) fault := by
  unfold Yields at h ⊢
  generalize c s = r at h ⊢
  rcases r with e | ⟨a, s'⟩
  · exact h
  · exact ⟨h, rfl⟩

theorem yields_ran : Yields c s (fun a s' => c s = .ok (a, s')) fun _ => True := by
  unfold Yields
  split
  · rename_i hc
    exact hc
  · trivial

@[simp]
theorem yields_pure (a : α) : Yields (pure a) s post fault ↔ post a s := Iff.rfl

@[simp]
theorem yields_bind {f : α → StateT σ (Except ε) β} {post : β → σ → Prop} :
    Yields (c >>= f) s post fault ↔
      Yields c s (fun a s' => Yields (f a) s' post fault) fault := by
  have hb : (c >>= f) s = c s >>= fun p => f p.1 p.2 := rfl
  unfold Yields
  rw [hb]
  rcases c s with e | ⟨a, s'⟩
  · exact Iff.rfl
  · exact Iff.rfl

@[simp]
theorem yields_throw (e : ε) :
    Yields (throw e : StateT σ (Except ε) α) s post fault ↔ fault e := Iff.rfl

@[simp]
theorem yields_get {post : σ → σ → Prop} :
    Yields (MonadState.get : StateT σ (Except ε) σ) s post fault ↔ post s s := Iff.rfl

@[simp]
theorem yields_set (s' : σ) {post : PUnit → σ → Prop} :
    Yields (MonadStateOf.set s' : StateT σ (Except ε) PUnit) s post fault ↔ post ⟨⟩ s' := Iff.rfl

@[simp]
theorem yields_modify (f : σ → σ) {post : PUnit → σ → Prop} :
    Yields (modify f : StateT σ (Except ε) PUnit) s post fault ↔ post ⟨⟩ (f s) := Iff.rfl

/-- A call that leaves the state alone. -/
theorem yields_lift {x : Except ε α} :
    Yields (StateT.lift x) s post fault ↔
      (∀ a, x = .ok a → post a s) ∧ ∀ e, x = .error e → fault e := by
  have hl : (StateT.lift x : StateT σ (Except ε) α) s = x >>= fun a => pure (a, s) := rfl
  unfold Yields
  rw [hl]
  rcases x with e | a
  · constructor
    · intro h
      refine ⟨fun a ha => (nomatch ha), fun e' he => ?_⟩
      cases he
      exact h
    · intro h
      exact h.2 e rfl
  · constructor
    · intro h
      refine ⟨fun a' ha => ?_, fun e he => (nomatch he)⟩
      cases ha
      exact h
    · intro h
      exact h.1 a rfl

/-- One command after the other, for each element of a list: an invariant that may
speak of what is still to come. -/
theorem yields_mapM {f : α → StateT σ (Except ε) β} {I : List α → σ → Prop}
    (hf : ∀ x xs s, I (x :: xs) s → Yields (f x) s (fun _ s' => I xs s') fault) (xs : List α)
    {s : σ} (h : I xs s) : Yields (xs.mapM f) s (fun _ s' => I [] s') fault := by
  induction xs generalizing s with
  | nil =>
    rw [List.mapM_nil, yields_pure]
    exact h
  | cons x xs ih =>
    rw [List.mapM_cons, yields_bind]
    refine (hf x xs s h).mono fun _ s' hs => ?_
    rw [yields_bind]
    refine (ih hs).mono fun _ s'' hs' => ?_
    rw [yields_pure]
    exact hs'

/-! ## Invariants -/

/-- The command keeps `I`, and fails only in a way that `fault` allows. -/
def Keeps (I : σ → Prop) (fault : ε → Prop) (c : StateT σ (Except ε) α) : Prop :=
  ∀ s, I s → Yields c s (fun _ s' => I s') fault

section

variable {I : σ → Prop} {f : α → StateT σ (Except ε) β}

theorem Keeps.weaken {fault' : ε → Prop} (h : Keeps I fault c) (hf : ∀ e, fault e → fault' e) :
    Keeps I fault' c :=
  fun s hs => (h s hs).weaken hf

theorem keeps_pure (a : α) : Keeps I fault (pure a : StateT σ (Except ε) α) := by
  intro s hs
  rw [yields_pure]
  exact hs

theorem keeps_throw {e : ε} (he : fault e) : Keeps I fault (throw e : StateT σ (Except ε) α) := by
  intro s _
  rw [yields_throw]
  exact he

/-- Nothing follows a failure. -/
theorem keeps_throw_bind {e : ε} (he : fault e) :
    Keeps I fault ((throw e : StateT σ (Except ε) α) >>= f) := by
  intro s _
  rw [yields_bind, yields_throw]
  exact he

theorem keeps_bind (hc : Keeps I fault c) (hf : ∀ a, Keeps I fault (f a)) :
    Keeps I fault (c >>= f) := by
  intro s hs
  rw [yields_bind]
  exact (hc s hs).mono fun a s' hs' => hf a s' hs'

/-- To look at the state changes nothing. What follows may use what holds of it. -/
theorem keeps_get {f : σ → StateT σ (Except ε) β} (hf : ∀ s, I s → Keeps I fault (f s)) :
    Keeps I fault (MonadState.get >>= f) := by
  intro s hs
  rw [yields_bind, yields_get]
  exact hf s hs s hs

theorem keeps_modify {f : σ → σ} (hf : ∀ s, I s → I (f s)) :
    Keeps I fault (modify f : StateT σ (Except ε) PUnit) := by
  intro s hs
  rw [yields_modify]
  exact hf s hs

/-- What follows a call may use what the call came to. -/
theorem keeps_lift {x : Except ε α} (he : ∀ e, x = .error e → fault e)
    (hf : ∀ a, x = .ok a → Keeps I fault (f a)) : Keeps I fault (StateT.lift x >>= f) := by
  intro s hs
  rw [yields_bind, yields_lift]
  exact ⟨fun a ha => hf a ha s hs, he⟩

theorem keeps_mapM {g : α → StateT σ (Except ε) β} {xs : List α}
    (hg : ∀ x ∈ xs, Keeps I fault (g x)) : Keeps I fault (xs.mapM g) := by
  induction xs with
  | nil =>
    rw [List.mapM_nil]
    exact keeps_pure []
  | cons x xs ih =>
    rw [List.mapM_cons]
    refine keeps_bind (hg x List.mem_cons_self) fun b => ?_
    refine keeps_bind (ih fun y hy => hg y (List.mem_cons_of_mem x hy)) fun bs => ?_
    exact keeps_pure _

end

/-! ## Values -/

/-- Whatever the command starts on, it fails or returns something good. -/
def Returns (good : α → Prop) (c : StateT σ (Except ε) α) : Prop :=
  ∀ s, Yields c s (fun a _ => good a) fun _ => True

/-- What is not good leaves the state as it was. -/
def Spares (good : α → Prop) (c : StateT σ (Except ε) α) : Prop :=
  ∀ s, Yields c s (fun a s' => good a ∨ s' = s) fun _ => True

/-- The command only looks at the state. -/
abbrev Looks (c : StateT σ (Except ε) α) : Prop := Spares (fun _ => False) c

section

variable {good : α → Prop} {f : β → StateT σ (Except ε) α}

theorem returns_pure {a : α} (h : good a) : Returns good (pure a : StateT σ (Except ε) α) :=
  fun _ => h

theorem returns_throw (e : ε) : Returns good (throw e : StateT σ (Except ε) α) :=
  fun _ => trivial

/-- What comes before does not matter. -/
theorem returns_bind {c : StateT σ (Except ε) β} (hf : ∀ b, Returns good (f b)) :
    Returns good (c >>= f) := by
  intro s
  rw [yields_bind]
  unfold Yields
  rcases c s with e | ⟨b, s'⟩
  · trivial
  · exact hf b s'

theorem Returns.spares (h : Returns good c) : Spares good c :=
  fun s => (h s).mono fun _ _ ha => .inl ha

theorem spares_pure (a : α) : Spares good (pure a : StateT σ (Except ε) α) :=
  fun _ => .inr rfl

theorem spares_throw (e : ε) : Spares good (throw e : StateT σ (Except ε) α) :=
  fun _ => trivial

theorem looks_get : Looks (MonadState.get : StateT σ (Except ε) σ) :=
  fun _ => .inr rfl

theorem looks_lift (x : Except ε α) : Looks (StateT.lift x : StateT σ (Except ε) α) :=
  fun _ => yields_lift.mpr ⟨fun _ _ => .inr rfl, fun _ _ => trivial⟩

/-- A command may look around before it starts. -/
theorem spares_bind {c : StateT σ (Except ε) β} (hc : Looks c) (hf : ∀ b, Spares good (f b)) :
    Spares good (c >>= f) := by
  intro s
  rw [yields_bind]
  refine (hc s).mono fun b s' hs => ?_
  rcases hs with hs | rfl
  · exact hs.elim
  · exact hf b s'

/-- A value is good when what it is made from is. -/
theorem Spares.map {c : StateT σ (Except ε) β} {good' : β → Prop} {g : β → α}
    (h : Spares good' c) (hg : ∀ b, good' b → good (g b)) :
    Spares good (do return g (← c)) := by
  intro s
  rw [yields_bind]
  exact (h s).mono fun b _ hs => hs.imp_left (hg b)

end

/-! ## Two runs -/

/-- Two runs end in the same way: with the same value and related states, or both fail. -/
def Together (R : σ → σ → Prop) : Except ε (α × σ) → Except ε (α × σ) → Prop
  | .ok (a, s), .ok (a', s') => a = a' ∧ R s s'
  | .error _, .error _ => True
  | _, _ => False

/-- From related states, the command ends in the same way. -/
def Lockstep (R : σ → σ → Prop) (c : StateT σ (Except ε) α) : Prop :=
  ∀ s s', R s s' → Together R (c s) (c s')

section

variable {R : σ → σ → Prop} {f : α → StateT σ (Except ε) β}

theorem Together.of_ok {r r' : Except ε (α × σ)} (h : Together R r r') {a : α} {s : σ}
    (hr : r = .ok (a, s)) : ∃ s', r' = .ok (a, s') ∧ R s s' := by
  subst hr
  rcases r' with e | ⟨a', s'⟩
  · exact h.elim
  · obtain ⟨rfl, hs⟩ := h
    exact ⟨s', rfl, hs⟩

theorem Together.of_error {r r' : Except ε (α × σ)} (h : Together R r r') {e : ε}
    (hr : r = .error e) : ∃ e', r' = .error e' := by
  subst hr
  rcases r' with e' | ⟨a', s'⟩
  · exact ⟨e', rfl⟩
  · exact h.elim

theorem lockstep_pure (a : α) : Lockstep R (pure a : StateT σ (Except ε) α) :=
  fun _ _ h => ⟨rfl, h⟩

theorem lockstep_throw (e : ε) : Lockstep R (throw e : StateT σ (Except ε) α) :=
  fun _ _ _ => trivial

/-- What follows may start from two different values and states. -/
theorem together_bind {s s' : σ} {f' : α → StateT σ (Except ε) β}
    {c' : StateT σ (Except ε) α} (hc : Together R (c s) (c' s'))
    (hf : ∀ a t t', R t t' → Together R (f a t) (f' a t')) :
    Together R ((c >>= f) s) ((c' >>= f') s') := by
  have hb : (c >>= f) s = c s >>= fun p => f p.1 p.2 := rfl
  have hb' : (c' >>= f') s' = c' s' >>= fun p => f' p.1 p.2 := rfl
  rw [hb, hb']
  rcases hr : c s with e | ⟨a, t⟩ <;> rw [hr] at hc
  · obtain ⟨e', hr'⟩ := hc.of_error rfl
    rw [hr']
    trivial
  · obtain ⟨t', hr', ht⟩ := hc.of_ok rfl
    rw [hr']
    exact hf a t t' ht

theorem lockstep_bind (hc : Lockstep R c) (hf : ∀ a, Lockstep R (f a)) :
    Lockstep R (c >>= f) :=
  fun s s' h => together_bind (hc s s' h) fun a t t' ht => hf a t t' ht

theorem lockstep_throw_bind (e : ε) :
    Lockstep R ((throw e : StateT σ (Except ε) α) >>= f) :=
  fun _ _ _ => trivial

/-- To look at the state gives two different values. -/
theorem lockstep_get {f : σ → StateT σ (Except ε) β}
    (hf : ∀ s s', R s s' → Together R (f s s) (f s' s')) :
    Lockstep R (MonadState.get >>= f) :=
  fun s s' h => hf s s' h

theorem lockstep_modify {f : σ → σ} (hf : ∀ s s', R s s' → R (f s) (f s')) :
    Lockstep R (modify f : StateT σ (Except ε) PUnit) :=
  fun s s' h => ⟨rfl, hf s s' h⟩

theorem lockstep_lift (x : Except ε α) : Lockstep R (StateT.lift x) := by
  intro s s' h
  have hl : ∀ t : σ, (StateT.lift x : StateT σ (Except ε) α) t = x >>= fun a => pure (a, t) :=
    fun _ => rfl
  rw [hl, hl]
  cases x with
  | error e => trivial
  | ok a => exact ⟨rfl, h⟩

theorem lockstep_mapM {g : α → StateT σ (Except ε) β} {xs : List α}
    (hg : ∀ x ∈ xs, Lockstep R (g x)) : Lockstep R (xs.mapM g) := by
  induction xs with
  | nil =>
    rw [List.mapM_nil]
    exact lockstep_pure []
  | cons x xs ih =>
    rw [List.mapM_cons]
    refine lockstep_bind (hg x List.mem_cons_self) fun b => ?_
    refine lockstep_bind (ih fun y hy => hg y (List.mem_cons_of_mem x hy)) fun bs => ?_
    exact lockstep_pure _

end

/-! ## Runs that may return different values -/

/-- Two runs fail alike, or both end and show the same. Where `same` holds, they are equal. -/
structure EndAlike {δ : Type} (shown : α → δ) (same : Prop) (x y : Except ε α) : Prop where
  shows : x.map shown = y.map shown
  equal : same → x = y

section

variable {δ κ : Type} {shown : α → δ} {shown' : β → κ} {same same' : Prop} {x y : Except ε α}

theorem endAlike_refl (x : Except ε α) : EndAlike shown same x x := ⟨rfl, fun _ => rfl⟩

theorem EndAlike.weaken (h : EndAlike shown same x y) (hs : same' → same) : EndAlike shown same' x y :=
  ⟨h.shows, fun h' => h.equal (hs h')⟩

theorem endAlike_bind {f g : α → Except ε β} (h : EndAlike shown same x y)
    (hf : ∀ a b, shown a = shown b → (same → a = b) → EndAlike shown' same (f a) (g b)) :
    EndAlike shown' same (x >>= f) (y >>= g) := by
  obtain ⟨hs, he⟩ := h
  cases x with
  | error e =>
    cases y with
    | error e' =>
      obtain rfl : e = e' := Except.error.inj hs
      exact endAlike_refl _
    | ok b => cases hs
  | ok a =>
    cases y with
    | error e' => cases hs
    | ok b => exact hf a b (Except.ok.inj hs) fun h => Except.ok.inj (he h)

/-- After the same first call, two that end alike. -/
theorem endAlike_after (x : Except ε α) {f g : α → Except ε β}
    (h : ∀ a, EndAlike shown' same (f a) (g a)) : EndAlike shown' same (x >>= f) (x >>= g) := by
  refine endAlike_bind (@endAlike_refl ε α α id same x) ?_
  rintro a b (rfl : a = b) -
  exact h a

/-- After the same command, two that end alike. -/
theorem endAlike_then {c : StateT σ (Except ε) α} {f g : α → StateT σ (Except ε) β}
    (h : ∀ a t, EndAlike Prod.snd same (f a t) (g a t)) (s : σ) :
    EndAlike Prod.snd same ((c >>= f) s) ((c >>= g) s) := by
  have hbind (k : α → StateT σ (Except ε) β) : (c >>= k) s = c s >>= fun p => k p.1 p.2 := rfl
  rw [hbind, hbind]
  exact endAlike_after _ fun p => h p.1 p.2

/-- What the two return is made into something else, in the same way. -/
theorem endAlike_return {c c' : StateT σ (Except ε) α} {s : σ}
    (h : EndAlike Prod.snd same (c s) (c' s)) (reply : α → β) :
    EndAlike Prod.snd same ((do return reply (← c) : StateT σ (Except ε) β) s)
      ((do return reply (← c') : StateT σ (Except ε) β) s) := by
  refine endAlike_bind h ?_
  intro p q hpq he
  refine ⟨congrArg Except.ok hpq, fun hs => ?_⟩
  rw [he hs]

/-- One command after the other, where each leads to the same state. -/
theorem endAlike_mapM {f g : α → StateT σ (Except ε) β} {xs : List α}
    (h : ∀ x ∈ xs, ∀ s, EndAlike Prod.snd same (f x s) (g x s)) (s : σ) :
    EndAlike Prod.snd same (xs.mapM f s) (xs.mapM g s) := by
  induction xs generalizing s with
  | nil => exact endAlike_refl _
  | cons x xs ih =>
    have hmapM (k : α → StateT σ (Except ε) β) : (x :: xs).mapM k s =
        k x s >>= fun p => xs.mapM k p.2 >>= fun q => .ok (p.1 :: q.1, q.2) := by
      rw [List.mapM_cons]
      rfl
    rw [hmapM, hmapM]
    refine endAlike_bind (h x List.mem_cons_self s) ?_
    rintro ⟨b, t⟩ ⟨b', t'⟩ (rfl : t = t') hb
    refine endAlike_bind (ih (fun y hy => h y (List.mem_cons_of_mem x hy)) t) ?_
    rintro ⟨bs, u⟩ ⟨bs', u'⟩ (rfl : u = u') hbs
    exact ⟨rfl, fun hsame => by
      rw [congrArg Prod.fst (hb hsame), congrArg Prod.fst (hbs hsame)]⟩

end

/-! ## Refinement -/

variable {γ τ : Type}

/-- The answers of an abstract machine to one command after the other. -/
def answers (answer : γ → τ → β × τ) : List γ → τ → List β × τ
  | [], t => ([], t)
  | c :: rest, t =>
    let first := answer c t
    let later := answers answer rest first.2
    (first.1 :: later.1, later.2)

/-- When each command answers as an abstract machine does, so does a list of them. The
relation between the two states may speak of what is still to come. -/
theorem yields_mapM_answers {f : α → StateT σ (Except ε) β} {answer : γ → τ → β × τ}
    {spells : α → γ → Prop} {rel : List γ → τ → σ → Prop}
    (hf : ∀ x c rest t s, spells x c → rel (c :: rest) t s →
      Yields (f x) s (fun b s' => b = (answer c t).1 ∧ rel rest (answer c t).2 s') fault)
    {xs : List α} {cs : List γ} (hs : List.Forall₂ spells xs cs) (later : List γ) {t : τ} {s : σ}
    (h : rel (cs ++ later) t s) :
    Yields (xs.mapM f) s (fun bs s' => bs = (answers answer cs t).1 ∧
      rel later (answers answer cs t).2 s') fault := by
  induction hs generalizing t s with
  | nil =>
    rw [List.mapM_nil, yields_pure]
    exact ⟨rfl, h⟩
  | @cons x c xs cs hx _ ih =>
    rw [List.mapM_cons, yields_bind]
    refine (hf x c _ t s hx h).mono fun b s' hb => ?_
    obtain ⟨rfl, hr⟩ := hb
    rw [yields_bind]
    refine (ih hr).mono fun bs s'' hbs => ?_
    obtain ⟨rfl, hr'⟩ := hbs
    rw [yields_pure]
    exact ⟨rfl, hr'⟩

end Outcome
