-- Commands that write down what they do: a trace beside the state. Without its trace such
-- a command is one that is known already.
import QuarkDB.Outcome

namespace Outcome

/-- A state, and what was written down on the way to it. -/
structure Traced (σ ω : Type) where
  area : σ
  writes : List ω := []

variable {σ ω ε α β : Type}

/-- A command that writes nothing down. -/
def plain (c : StateT σ (Except ε) α) : StateT (Traced σ ω) (Except ε) α := fun t => do
  let (a, s) ← c t.area
  return (a, { t with area := s })

def note (w : ω) : StateT (Traced σ ω) (Except ε) PUnit :=
  modify fun t => { t with writes := t.writes ++ [w] }

section

variable {c : StateT σ (Except ε) α} {d : StateT (Traced σ ω) (Except ε) α} {t t' : Traced σ ω}
  {fault : ε → Prop}

@[simp]
theorem yields_plain {post : α → Traced σ ω → Prop} :
    Yields (plain c) t post fault ↔
      Yields c t.area (fun a s => post a { t with area := s }) fault := by
  have hp : (plain c : StateT (Traced σ ω) (Except ε) α) t =
      c t.area >>= fun p => pure (p.1, { t with area := p.2 }) := rfl
  unfold Yields
  rw [hp]
  rcases c t.area with e | ⟨a, s⟩
  · exact Iff.rfl
  · exact Iff.rfl

@[simp]
theorem yields_note (w : ω) {post : PUnit → Traced σ ω → Prop} :
    Yields (note w : StateT (Traced σ ω) (Except ε) PUnit) t post fault ↔
      post ⟨⟩ { t with writes := t.writes ++ [w] } := Iff.rfl

/-- Without its trace, `d` does what `c` does. -/
def Tells (d : StateT (Traced σ ω) (Except ε) α) (c : StateT σ (Except ε) α) : Prop :=
  ∀ t, (d t).map (fun p => (p.1, p.2.area)) = c t.area

theorem Tells.of_ok (h : Tells d c) {a : α} (hd : d t = .ok (a, t')) :
    c t.area = .ok (a, t'.area) := by
  rw [← h t, hd]
  rfl

theorem Tells.exists_ok (h : Tells d c) {a : α} {s : σ} (hc : c t.area = .ok (a, s)) :
    ∃ writes, d t = .ok (a, { area := s, writes }) := by
  rw [← h t] at hc
  rcases hd : d t with e | ⟨a', t'⟩
  · rw [hd] at hc
    cases hc
  · rw [hd] at hc
    cases hc
    exact ⟨t'.writes, rfl⟩

/-- What the command keeps is kept with a trace as well. -/
theorem Tells.keeps {I : σ → Prop} (h : Tells d c) (hc : Keeps I fault c) :
    Keeps (fun t => I t.area) fault d := by
  intro t ht
  have hy := hc t.area ht
  unfold Yields at hy ⊢
  rw [← h t] at hy
  rcases hd : d t with e | ⟨a, t'⟩
  · rw [hd] at hy
    exact hy
  · rw [hd] at hy
    exact hy

theorem tells_plain (c : StateT σ (Except ε) α) :
    Tells (plain c : StateT (Traced σ ω) (Except ε) α) c := by
  intro t
  have hp : (plain c : StateT (Traced σ ω) (Except ε) α) t =
      c t.area >>= fun p => pure (p.1, { t with area := p.2 }) := rfl
  rw [hp]
  rcases c t.area with e | ⟨a, s⟩
  · rfl
  · rfl

theorem tells_pure (a : α) :
    Tells (pure a : StateT (Traced σ ω) (Except ε) α) (pure a : StateT σ (Except ε) α) :=
  fun _ => rfl

theorem tells_throw (e : ε) :
    Tells (throw e : StateT (Traced σ ω) (Except ε) α) (throw e : StateT σ (Except ε) α) :=
  fun _ => rfl

variable {g : α → StateT (Traced σ ω) (Except ε) β} {f : α → StateT σ (Except ε) β}

theorem tells_bind (h : Tells d c) (hf : ∀ a, Tells (g a) (f a)) :
    Tells (d >>= g) (c >>= f) := by
  intro t
  have hd : (d >>= g) t = d t >>= fun p => g p.1 p.2 := rfl
  have hc : (c >>= f) t.area = c t.area >>= fun p => f p.1 p.2 := rfl
  rw [hd, hc, ← h t]
  rcases d t with e | ⟨a, t1⟩
  · rfl
  · exact hf a t1

/-- First a note, which is not told. -/
theorem tells_note_bind {c : StateT σ (Except ε) β} {w : ω}
    {g : PUnit → StateT (Traced σ ω) (Except ε) β} (h : Tells (g ⟨⟩) c) :
    Tells (note w >>= g) c :=
  fun t => h { t with writes := t.writes ++ [w] }

theorem tells_mapM {xs : List α} (h : ∀ x ∈ xs, Tells (g x) (f x)) :
    Tells (xs.mapM g) (xs.mapM f) := by
  induction xs with
  | nil => exact tells_pure []
  | cons x xs ih =>
    rw [List.mapM_cons, List.mapM_cons]
    refine tells_bind (h x List.mem_cons_self) fun b => ?_
    refine tells_bind (ih fun y hy => h y (List.mem_cons_of_mem x hy)) fun bs => ?_
    exact tells_pure (b :: bs)

end

end Outcome
