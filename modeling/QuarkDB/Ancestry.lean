-- The entries that leaders made, as a tree: each lies on the one it was made for. An entry
-- of some term that a majority held in that term lies below every entry of a later term,
-- when votes go to logs that are not behind.
import QuarkDB.Consensus
import Mathlib.Order.Lattice
import Mathlib.Algebra.Order.Ring.Int

/-! ## Places below an entry -/

namespace Chains

variable {Entry : Type} {term : Entry → Int} {L L' : Int → Int → Entry → Prop} {base : Int}
  {log : Int → Option Entry}

/-- Down from the place of term `t` at index `i`, along the ledger, lies that of term `u`
at `k`. -/
inductive Over (term : Entry → Int) (L : Int → Int → Entry → Prop) :
    Int → Int → Int → Int → Prop
  | refl (i t : Int) : Over term L i t i t
  | step {i p k u : Int} {e : Entry} (h : L i p e) (below : Over term L (i - 1) p k u) :
      Over term L i (term e) k u

/-- The place is that of an entry of the ledger. -/
def Made (term : Entry → Int) (L : Int → Int → Entry → Prop) (i t : Int) : Prop :=
  ∃ p e, L i p e ∧ term e = t

theorem Made.mono {i t : Int} (h : Made term L i t) (hL : ∀ i p e, L i p e → L' i p e) :
    Made term L' i t := by
  obtain ⟨p, e, hp, ht⟩ := h
  exact ⟨p, e, hL i p e hp, ht⟩

namespace Over

variable {i t k u l v : Int}

theorem mono (h : Over term L i t k u) (hL : ∀ i p e, L i p e → L' i p e) :
    Over term L' i t k u := by
  induction h with
  | refl i t => exact .refl i t
  | step he _ ih => exact .step (hL _ _ _ he) ih

theorem le (h : Over term L i t k u) : k ≤ i := by
  induction h with
  | refl => exact le_refl _
  | step _ _ ih => omega

theorem trans (h : Over term L i t k u) (h' : Over term L k u l v) : Over term L i t l v := by
  induction h with
  | refl => exact h'
  | step he _ ih => exact .step he (ih h')

/-- Above another place, a place is that of an entry. -/
theorem made (h : Over term L i t k u) (hk : Made term L k u) : Made term L i t := by
  cases h with
  | refl => exact hk
  | step he _ => exact ⟨_, _, he, rfl⟩

/-- A place is above one place at each index. -/
theorem unique (hL : Single term L) (h : Over term L i t k u) (h' : Over term L i t k v) :
    u = v := by
  induction h with
  | refl i t =>
    cases h' with
    | refl => rfl
    | step _ hb =>
      have hle := hb.le
      omega
  | @step i p k u e he hb ih =>
    generalize ht : term e = t' at h'
    cases h' with
    | refl =>
      have hle := hb.le
      omega
    | @step _ p' _ _ e' he' hb' =>
      obtain ⟨rfl, -⟩ := hL i p p' e e' he he' ht
      exact ih hb'

/-- Two places below one lie below each other. -/
theorem linear (hL : Single term L) (h : Over term L i t k u) (h' : Over term L i t l v)
    (hlk : l ≤ k) : Over term L k u l v := by
  induction h with
  | refl => exact h'
  | @step i p k u e he hb ih =>
    generalize ht : term e = t' at h'
    cases h' with
    | refl =>
      have hle := hb.le
      omega
    | @step _ p' _ _ e' he' hb' =>
      obtain ⟨rfl, -⟩ := hL i p p' e e' he he' ht
      exact ih hb' hlk

/-- Every index on the way down has a place. -/
theorem between (h : Over term L i t k u) (hk : k ≤ l) (hl : l ≤ i) :
    ∃ v, Over term L i t l v ∧ Over term L l v k u := by
  induction h with
  | refl i t =>
    obtain rfl : l = i := by omega
    exact ⟨t, .refl l t, .refl l t⟩
  | @step i p k u e he hb ih =>
    by_cases hli : l = i
    · subst hli
      exact ⟨term e, .refl l _, .step he hb⟩
    · obtain ⟨v, h1, h2⟩ := ih hk (by omega)
      exact ⟨v, .step he h1, h2⟩

end Over

/-- Terms do not go down along the ledger. -/
def Rising (term : Entry → Int) (L : Int → Int → Entry → Prop) : Prop :=
  ∀ i p e, L i p e → p ≤ term e

theorem Over.term_le (hr : Rising term L) {i t k u : Int} (h : Over term L i t k u) : u ≤ t := by
  induction h with
  | refl => exact le_refl _
  | step he _ ih => exact le_trans ih (hr _ _ _ he)

/-- The entries of one term lie on each other, without a gap. -/
def Unbroken (term : Entry → Int) (L : Int → Int → Entry → Prop) : Prop :=
  ∀ i p e, L i p e → ∀ k, Made term L k (term e) → k < i →
    p = term e ∧ Made term L (i - 1) (term e)

theorem Unbroken.over (hu : Unbroken term L) {i k t : Int} (hi : Made term L i t)
    (hk : Made term L k t) (hki : k ≤ i) : Over term L i t k t := by
  obtain ⟨d, rfl⟩ : ∃ d : Nat, i = k + d := ⟨(i - k).toNat, by omega⟩
  induction d with
  | zero =>
    have hz : k + (0 : Nat) = k := by omega
    rw [hz]
    exact .refl k t
  | succ d ih =>
    obtain ⟨p, e, he, rfl⟩ := hi
    obtain ⟨hp, hbelow⟩ := hu _ p e he k hk (by omega)
    have hd : k + (d + 1 : Nat) - 1 = k + (d : Nat) := by omega
    rw [hd] at hbelow
    refine .step he ?_
    rw [hd, hp]
    exact ih hbelow (by omega)

/-- Of two entries of one term, one lies below the other. -/
theorem Unbroken.comparable (hu : Unbroken term L) {i k t : Int} (hi : Made term L i t)
    (hk : Made term L k t) : Over term L i t k t ∨ Over term L k t i t := by
  rcases le_total k i with h | h
  · exact .inl (hu.over hi hk h)
  · exact .inr (hu.over hk hi h)

/-- Each entry was made on one that had been made, or on the base. -/
def Grounded (term : Entry → Int) (base : Int) (L : Int → Int → Entry → Prop) : Prop :=
  ∀ i p e, L i p e → base < i ∧ (i - 1 = base ∨ Made term L (i - 1) p)

/-- What lies below an entry of a ledger does not change when the ledger grows. -/
theorem Over.restrict (hL : Single term L') (hsub : ∀ i p e, L i p e → L' i p e)
    (hg : Grounded term base L) (hg' : Grounded term base L') {i t k u : Int}
    (h : Over term L' i t k u) (hi : i ≤ base ∨ Made term L i t) : Over term L i t k u := by
  induction h with
  | refl => exact .refl _ _
  | @step i p k u e he hb ih =>
    have hbase := (hg' i p e he).1
    obtain ⟨p', e', he', ht⟩ := hi.resolve_left (by omega)
    obtain ⟨rfl, rfl⟩ := hL i p p' e e' he (hsub _ _ _ he') ht.symm
    refine .step he' (ih ?_)
    rcases (hg i p e he').2 with hb | hm
    · exact .inl (le_of_eq hb)
    · exact .inr hm

/-- The place lies below an entry of term `t`. -/
def Path (term : Entry → Int) (L : Int → Int → Entry → Prop) (t k u : Int) : Prop :=
  ∃ i, Made term L i t ∧ Over term L i t k u

theorem Made.path {k t : Int} (h : Made term L k t) : Path term L t k t := ⟨k, h, .refl k t⟩

namespace Path

variable {t k u l v : Int}

theorem mono (h : Path term L t k u) (hL : ∀ i p e, L i p e → L' i p e) : Path term L' t k u := by
  obtain ⟨i, hi, ho⟩ := h
  exact ⟨i, hi.mono hL, ho.mono hL⟩

theorem below (h : Path term L t k u) (ho : Over term L k u l v) : Path term L t l v := by
  obtain ⟨i, hi, hik⟩ := h
  exact ⟨i, hi, hik.trans ho⟩

/-- Two places below entries of one term lie below each other. -/
theorem linear (hL : Single term L) (hu : Unbroken term L) (h : Path term L t k u)
    (h' : Path term L t l v) (hlk : l ≤ k) : Over term L k u l v := by
  obtain ⟨i, hi, ho⟩ := h
  obtain ⟨i', hi', ho'⟩ := h'
  rcases hu.comparable hi hi' with hc | hc
  · exact ho.linear hL (hc.trans ho') hlk
  · exact (hc.trans ho).linear hL ho' hlk

/-- One place at each index lies below the entries of a term. -/
theorem unique (hL : Single term L) (hu : Unbroken term L) (h : Path term L t k u)
    (h' : Path term L t k v) : u = v :=
  ((h.linear hL hu h' (le_refl k)).unique hL (.refl k u)).symm

end Path

/-- A log with a chain has, below each of its entries, all others. -/
theorem Chained.over (h : Chained term L base log) (hd : Dense log) {i k : Int} {e f : Entry}
    (he : log i = some e) (hf : log k = some f) (hk : base ≤ k) (hki : k ≤ i) :
    Over term L i (term e) k (term f) := by
  obtain ⟨d, rfl⟩ : ∃ d : Nat, i = k + d := ⟨(i - k).toNat, by omega⟩
  induction d generalizing e with
  | zero =>
    have hz : k + (0 : Nat) = k := by omega
    rw [hz] at he ⊢
    rw [he] at hf
    cases hf
    exact .refl k _
  | succ d ih =>
    have hd1 : k + (d + 1 : Nat) - 1 = k + (d : Nat) := by omega
    obtain ⟨p, hp, hbelow⟩ := h _ e (by omega) he
    obtain ⟨g, hg⟩ := Option.isSome_iff_exists.mp
      (hd k (k + (d : Nat)) (k + (d + 1 : Nat)) (by omega) (by omega) (by rw [hf]; rfl)
        (by rw [he]; rfl))
    refine .step hp ?_
    rw [hd1] at hbelow ⊢
    rw [← hbelow g hg]
    exact ih hg (by omega)

end Chains

/-! ## Leaders and what was chosen -/

namespace Ballots

open Chains

variable {Node Entry : Type}

/-- What is remembered of a run: the entries that were made, the votes, where a candidate's log
ended when it stood for a term, and where that of a node ended when the last entry was of the
term of the node. -/
structure Record (Node Entry : Type) where
  made : Int → Int → Entry → Prop
  vote : Node → Int → Node → Prop
  stood : Node → Int → Int → Int → Prop
  held : Node → Int → Int → Prop

variable (term : Entry → Int) (nodes : List Node) (base floor : Int) (R : Record Node Entry)

/-- More than half of the nodes held the entry at `m`, or a later one of its term, in the term. -/
def Chosen (m T : Int) : Prop :=
  Made term R.made m T ∧ ∃ holders : List Node, holders.Nodup ∧ holders ⊆ nodes ∧
    nodes.length < 2 * holders.length ∧ ∀ v ∈ holders, ∃ k, m ≤ k ∧ R.held v T k

/-- All entries of the later terms up to `C` lie on the place. -/
def Safe (m T C : Int) : Prop :=
  ∀ i p e, R.made i p e → T < term e → term e ≤ C → Over term R.made i (term e) m T

/-- A node whose log ends at the place has what it held, if the later terms up to `C` have it. -/
def Keeps (v : Node) (i u C : Int) : Prop :=
  ∀ T k m, R.held v T k → m ≤ k → T ≤ C → Made term R.made m T → Safe term R m T C →
    Over term R.made i u m T

/-- What leaders and voters do in every run. -/
structure Lawful : Prop where
  single : Single term R.made
  rising : Rising term R.made
  unbroken : Unbroken term R.made
  grounded : Grounded term base R.made
  floor_lt : ∀ i p e, R.made i p e → floor < term e
  stood_lt : ∀ a T ci cu, R.stood a T ci cu → cu < T
  stood_made : ∀ a T ci cu, R.stood a T ci cu →
    (ci = base ∧ cu = floor) ∨ Made term R.made ci cu
  won : ∀ i p e, R.made i p e → ∃ a ci cu f, Elected R.vote nodes (term e) a ∧
    R.stood a (term e) ci cu ∧ R.made (ci + 1) cu f ∧ term f = term e ∧ ci + 1 ≤ i
  voted : ∀ v T a, R.vote v T a → ∀ ci cu, R.stood a T ci cu → ∃ i u,
    (u < cu ∨ u = cu ∧ i ≤ ci) ∧ Keeps term R v i u (T - 1)

variable {term nodes base floor R}

/-- What was chosen lies below every entry of a later term. -/
theorem Lawful.complete (h : Lawful term nodes base floor R) {m T : Int}
    (hc : Chosen term nodes R m T) (C : Int) : Safe term R m T C := by
  -- By induction on how far the term is from the one it was chosen in.
  suffices hall : ∀ d : Nat, Safe term R m T (T + d) by
    intro i p e he h1 h2
    exact hall (term e - T).toNat i p e he h1 (by omega)
  intro d
  induction d with
  | zero =>
    intro i p e he h1 h2
    omega
  | succ d ih =>
    intro i p e he h1 h2
    by_cases hlast : term e ≤ T + d
    · exact ih i p e he h1 hlast
    have hte : term e - 1 = T + d := by push_cast at h2; omega
    obtain ⟨hmade, holders, hnd, hsub, hmaj, hheld⟩ := hc
    obtain ⟨a, ci, cu, f, ⟨voters, hnd', hsub', hmaj', hvote⟩, hstood, hf, hft, hci⟩ := h.won i p e he
    obtain ⟨v, hv, hv'⟩ := exists_mem_of_majorities hnd hnd' hsub hsub' hmaj hmaj'
    obtain ⟨k, hmk, hk⟩ := hheld v hv
    obtain ⟨vi, vu, hup, hkeeps⟩ := h.voted v (term e) a (hvote v hv') ci cu hstood
    rw [hte] at hkeeps
    -- The voter that held the entry has it when it votes.
    have hover := hkeeps T k m hk hmk (by omega) hmade ih
    have hvmade := hover.made hmade
    have hTvu := hover.term_le h.rising
    have hfloor : floor < vu := by
      obtain ⟨q, g, hg, rfl⟩ := hvmade
      exact h.floor_lt vi q g hg
    have hlt := h.stood_lt a _ ci cu hstood
    have hcand : Over term R.made ci cu m T := by
      rcases h.stood_made a _ ci cu hstood with ⟨-, hcu⟩ | hcm
      · -- The log of the candidate has no entry of a leader, and that of the voter has.
        omega
      rcases hup with hup | ⟨rfl, hle⟩
      · -- The log of the candidate ends in a later term, which has it.
        obtain ⟨q, g, hg, rfl⟩ := hcm
        exact ih ci q g hg (by omega) (by omega)
      · exact (h.unbroken.over hcm hvmade hle).trans hover
    have hmark : Over term R.made (ci + 1) (term e) m T := by
      rw [← hft]
      refine .step hf ?_
      have hsub1 : ci + 1 - 1 = ci := by omega
      rw [hsub1]
      exact hcand
    exact (h.unbroken.over ⟨p, e, he, rfl⟩ ⟨cu, f, hf, hft⟩ hci).trans hmark

theorem Chosen.mono {R' : Record Node Entry} {m T : Int} (h : Chosen term nodes R m T)
    (hmade : ∀ i p e, R.made i p e → R'.made i p e)
    (hheld : ∀ v T k, R.held v T k → R'.held v T k) : Chosen term nodes R' m T := by
  obtain ⟨hm, holders, h1, h2, h3, h4⟩ := h
  refine ⟨hm.mono hmade, holders, h1, h2, h3, fun v hv => ?_⟩
  obtain ⟨k, hmk, hk⟩ := h4 v hv
  exact ⟨k, hmk, hheld v T k hk⟩

/-- A node keeps what it held when more is remembered: the new entries are above what it held,
and its log has what it had below, unless that is not safe. -/
theorem Keeps.next {R' : Record Node Entry} {v : Node} {i u C i' u' C' : Int}
    (h : Keeps term R v i u C) (hC : C ≤ C') (hmade : ∀ i p e, R.made i p e → R'.made i p e)
    (hs : Single term R'.made) (hu : Unbroken term R'.made) (hg : Grounded term base R.made)
    (hg' : Grounded term base R'.made) (hold : ∀ T k, R.held v T k → T ≤ C' → T ≤ C)
    (hfresh : ∀ T k m, R.held v T k → m ≤ k → Made term R'.made m T → Made term R.made m T)
    (hnew : ∀ T k, R'.held v T k → T ≤ C' →
      R.held v T k ∨ T = u' ∧ k = i' ∧ Made term R'.made i' u')
    (hlog : ∀ m T, T ≤ C' → Over term R.made i u m T → Made term R'.made m T →
      Safe term R' m T C' → Over term R'.made i' u' m T) : Keeps term R' v i' u' C' := by
  intro T k m hk hmk hT hm hsafe
  rcases hnew T k hk hT with hk | ⟨rfl, rfl, hki⟩
  · have hsafe0 : Safe term R m T C := fun i p e he h1 h2 =>
      (hsafe i p e (hmade i p e he) h1 (le_trans h2 hC)).restrict hs hmade hg hg'
        (.inr ⟨p, e, he, rfl⟩)
    have hover := h T k m hk hmk (hold T k hk hT) (hfresh T k m hk hmk hm) hsafe0
    exact hlog m T hT hover hm hsafe
  · exact hu.over hki hm hmk

/-- Down from what was chosen lies the place. -/
def Decided (term : Entry → Int) (nodes : List Node) (R : Record Node Entry) (i u : Int) : Prop :=
  ∃ m T, Chosen term nodes R m T ∧ Over term R.made m T i u

/-- An entry of the term in which something was chosen, or of a later one, lies above it or
below it. -/
theorem Lawful.comparable (h : Lawful term nodes base floor R) {m T i t : Int}
    (hc : Chosen term nodes R m T) (hi : Made term R.made i t) (hle : T ≤ t) :
    Over term R.made i t m T ∨ Over term R.made m T i t := by
  rcases eq_or_lt_of_le hle with rfl | hlt
  · exact h.unbroken.comparable hi hc.1
  · obtain ⟨p, e, he, rfl⟩ := hi
    exact .inl (h.complete hc (term e) i p e he hlt (le_refl _))

/-- What was chosen in a term lies below the entries of that term and of later ones. -/
theorem Lawful.path_of_chosen (h : Lawful term nodes base floor R) {m T C k u : Int}
    (hc : Chosen term nodes R m T) (hle : T ≤ C) (hp : Path term R.made C k u) :
    Path term R.made C m T := by
  rcases eq_or_lt_of_le hle with rfl | hlt
  · exact hc.1.path
  · obtain ⟨i, ⟨p, e, he, rfl⟩, -⟩ := hp
    exact ⟨i, ⟨p, e, he, rfl⟩, h.complete hc (term e) i p e he hlt (le_refl _)⟩

/-- At each index one place is decided at most. -/
theorem Lawful.decided_unique (h : Lawful term nodes base floor R) {i u u' : Int}
    (hu : Decided term nodes R i u) (hu' : Decided term nodes R i u') : u = u' := by
  obtain ⟨m, T, hc, ho⟩ := hu
  obtain ⟨m', T', hc', ho'⟩ := hu'
  have hcomp : Over term R.made m' T' m T ∨ Over term R.made m T m' T' := by
    rcases le_total T T' with hle | hle
    · exact h.comparable hc hc'.1 hle
    · exact (h.comparable hc' hc.1 hle).symm
  rcases hcomp with hover | hover
  · exact (hover.trans ho).unique h.single ho'
  · exact ho.unique h.single (hover.trans ho')

end Ballots
