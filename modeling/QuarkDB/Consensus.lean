-- Elections and replicated logs, of any nodes and any entries: a vote that is
-- given once per term elects at most one node, and logs whose entries were
-- made once per index and term agree below any entry they share.
import Mathlib.Data.List.Nodup
import Mathlib.Data.List.Perm.Subperm

/-! ## Votes -/

namespace Ballots

variable {Node : Type} {V V' : Node → Int → Node → Prop} {nodes : List Node} {T : Int} {a b : Node}

/-- In one term, a node votes for one node only. -/
def Once (V : Node → Int → Node → Prop) : Prop :=
  ∀ v T a b, V v T a → V v T b → a = b

/-- More than half of the nodes have voted for `a`. -/
def Elected (V : Node → Int → Node → Prop) (nodes : List Node) (T : Int) (a : Node) : Prop :=
  ∃ voters : List Node, voters.Nodup ∧ voters ⊆ nodes ∧ nodes.length < 2 * voters.length ∧
    ∀ v ∈ voters, V v T a

theorem Elected.mono (h : Elected V nodes T a) (hV : ∀ v T a, V v T a → V' v T a) :
    Elected V' nodes T a := by
  obtain ⟨voters, h1, h2, h3, h4⟩ := h
  exact ⟨voters, h1, h2, h3, fun v hv => hV v T a (h4 v hv)⟩

/-- Two majorities have a node in common. -/
theorem exists_mem_of_majorities {l₁ l₂ : List Node} (h₁ : l₁.Nodup) (h₂ : l₂.Nodup)
    (hs₁ : l₁ ⊆ nodes) (hs₂ : l₂ ⊆ nodes) (hm₁ : nodes.length < 2 * l₁.length)
    (hm₂ : nodes.length < 2 * l₂.length) : ∃ v ∈ l₁, v ∈ l₂ := by
  by_contra hnone
  have hdisj : l₁.Disjoint l₂ := fun v hv₁ hv₂ => hnone ⟨v, hv₁, hv₂⟩
  have hnd : (l₁ ++ l₂).Nodup := List.Nodup.append h₁ h₂ hdisj
  have hsub : l₁ ++ l₂ ⊆ nodes := List.append_subset.mpr ⟨hs₁, hs₂⟩
  have hlen := (hnd.subperm hsub).length_le
  rw [List.length_append] at hlen
  omega

theorem elected_unique (hV : Once V) (ha : Elected V nodes T a) (hb : Elected V nodes T b) :
    a = b := by
  obtain ⟨l₁, h₁, hs₁, hm₁, hv₁⟩ := ha
  obtain ⟨l₂, h₂, hs₂, hm₂, hv₂⟩ := hb
  obtain ⟨v, hmem₁, hmem₂⟩ := exists_mem_of_majorities h₁ h₂ hs₁ hs₂ hm₁ hm₂
  exact hV v T a b (hv₁ v hmem₁) (hv₂ v hmem₂)

end Ballots

/-! ## Logs -/

namespace Chains

variable {Entry : Type} {term : Entry → Int} {L L' : Int → Int → Entry → Prop} {base : Int}
  {log log' : Int → Option Entry}

/-- A ledger has the entries that were ever made, with their index and the term
of the entry below. At an index, a term has one entry only. -/
def Single (term : Entry → Int) (L : Int → Int → Entry → Prop) : Prop :=
  ∀ i p p' e e', L i p e → L i p' e' → term e = term e' → p = p' ∧ e = e'

/-- Above the base, each entry of the log is in the ledger, and has the entry
below that it was made for. -/
def Chained (term : Entry → Int) (L : Int → Int → Entry → Prop) (base : Int)
    (log : Int → Option Entry) : Prop :=
  ∀ i e, base < i → log i = some e →
    ∃ p, L i p e ∧ ∀ below, log (i - 1) = some below → term below = p

/-- A log has no holes. -/
def Dense (log : Int → Option Entry) : Prop :=
  ∀ i j k, i ≤ j → j ≤ k → (log i).isSome → (log k).isSome → (log j).isSome

theorem Chained.mono (h : Chained term L base log) (hL : ∀ i p e, L i p e → L' i p e) :
    Chained term L' base log := by
  intro i e hi he
  obtain ⟨p, hp, hb⟩ := h i e hi he
  exact ⟨p, hL i p e hp, hb⟩

/-- A log that lost some of its entries. -/
theorem Chained.of_subset (h : Chained term L base log)
    (hs : ∀ i e, log' i = some e → log i = some e) : Chained term L base log' := by
  intro i e hi he
  obtain ⟨p, hp, hb⟩ := h i e hi (hs i e he)
  exact ⟨p, hp, fun below hbelow => hb below (hs _ _ hbelow)⟩

/-- One more entry, made for the last one. -/
theorem Chained.snoc {n p : Int} {e : Entry} (h : Chained term L base log)
    (hfree : ∀ i, n ≤ i → log i = none) (hL : L n p e)
    (hbelow : ∀ below, log (n - 1) = some below → term below = p) :
    Chained term L base fun i => if i = n then some e else log i := by
  intro i e' hi he
  dsimp only at he
  by_cases hin : i = n
  · rw [if_pos hin] at he
    cases he
    subst hin
    have hne : i - 1 ≠ i := by omega
    exact ⟨p, hL, fun below hb => hbelow below (by simpa [hne] using hb)⟩
  · rw [if_neg hin] at he
    obtain ⟨p', hp', hb'⟩ := h i e' hi he
    refine ⟨p', hp', fun below hb => hb' below ?_⟩
    by_cases hin' : i - 1 = n
    · rw [hfree i (by omega)] at he
      cases he
    · simpa [hin'] using hb

/-- Entries from `i` on, on top of one of term `p`, as they are in the ledger. -/
def Segment (term : Entry → Int) (L : Int → Int → Entry → Prop) : Int → Int → List Entry → Prop
  | _, _, [] => True
  | i, p, e :: rest => L i p e ∧ Segment term L (i + 1) (term e) rest

theorem Segment.mono {i p : Int} {es : List Entry} (h : Segment term L i p es)
    (hL : ∀ i p e, L i p e → L' i p e) : Segment term L' i p es := by
  induction es generalizing i p with
  | nil => trivial
  | cons e rest ih => exact ⟨hL i p e h.1, ih h.2⟩

theorem Segment.mem {i p : Int} {es : List Entry} (h : Segment term L i p es) {e : Entry}
    (he : e ∈ es) : ∃ i' p', L i' p' e := by
  induction es generalizing i p with
  | nil => cases he
  | cons f rest ih =>
    rcases List.mem_cons.mp he with rfl | he
    · exact ⟨i, p, h.1⟩
    · exact ih h.2 he

theorem Segment.take {i p : Int} {es : List Entry} (h : Segment term L i p es) (k : Nat) :
    Segment term L i p (es.take k) := by
  induction es generalizing i p k with
  | nil => simpa using h
  | cons e rest ih =>
    cases k with
    | zero => trivial
    | succ k => exact ⟨h.1, ih h.2 k⟩

/-- What is left of a segment lies on top of its last entry before. -/
theorem Segment.drop {i p : Int} {es : List Entry} (h : Segment term L i p es) (k : Nat) :
    ∃ q, Segment term L (i + k) q (es.drop k) ∧
      (k = 0 → q = p) ∧ ∀ e, 0 < k → es[k - 1]? = some e → term e = q := by
  induction es generalizing i p k with
  | nil => exact ⟨p, by simp [Segment], fun _ => rfl, by simp⟩
  | cons e rest ih =>
    cases k with
    | zero => exact ⟨p, by simpa using h, fun _ => rfl, by simp⟩
    | succ k =>
      obtain ⟨q, h1, h2, h3⟩ := ih h.2 k
      have hi : i + 1 + (k : Int) = i + ((k + 1 : Nat) : Int) := by omega
      refine ⟨q, by simpa [hi] using h1, by simp, fun f _ hf => ?_⟩
      cases k with
      | zero =>
        simp only [Nat.zero_add, Nat.sub_self, List.getElem?_cons_zero, Option.some.injEq] at hf
        rw [h2 rfl, hf]
      | succ k => exact h3 f (Nat.succ_pos k) (by simpa using hf)

/-- A stretch of a log is a segment. -/
theorem Chained.segment (h : Chained term L base log) {i p : Int} {es : List Entry} (hi : base < i)
    (hbelow : ∃ below, log (i - 1) = some below ∧ term below = p)
    (hes : ∀ (k : Nat) e, es[k]? = some e → log (i + k) = some e) : Segment term L i p es := by
  induction es generalizing i p with
  | nil => trivial
  | cons e rest ih =>
    have he : log i = some e := by simpa using hes 0 e rfl
    obtain ⟨below, hb, ht⟩ := hbelow
    obtain ⟨q, hq, hqb⟩ := h i e hi he
    have hqp : q = p := (hqb below hb).symm.trans ht
    have hprev : i + 1 - 1 = i := by omega
    refine ⟨hqp ▸ hq, ih (by omega) ⟨e, by rw [hprev]; exact he, rfl⟩ fun k f hf => ?_⟩
    have hk := hes (k + 1) f (by simpa using hf)
    have hik : i + 1 + (k : Int) = i + ((k + 1 : Nat) : Int) := by omega
    rw [hik]
    exact hk

/-- Two logs agree at each index that both have, up to one at which their
entries are of one term. -/
theorem Chained.agree (hL : Single term L) (h : Chained term L base log)
    (h' : Chained term L base log') (hd : Dense log) (hd' : Dense log')
    (hbase : ∀ i e e', i ≤ base → log i = some e → log' i = some e' → e = e')
    {i : Int} {e e' : Entry} (he : log i = some e) (he' : log' i = some e')
    (ht : term e = term e') {k : Int} (hk : k ≤ i) (hs : (log k).isSome) (hs' : (log' k).isSome) :
    log k = log' k := by
  obtain ⟨d, rfl⟩ : ∃ d : Nat, i = k + d := ⟨(i - k).toNat, by omega⟩
  -- Down from the shared entry, along the chain of both logs.
  induction d generalizing e e' with
  | zero =>
    have hk0 : k + (0 : Nat) = k := by omega
    rw [hk0] at he he'
    by_cases hb : base < k
    · obtain ⟨p, hp, -⟩ := h k e hb he
      obtain ⟨p', hp', -⟩ := h' k e' hb he'
      rw [he, he', (hL k p p' e e' hp hp' ht).2]
    · rw [he, he', hbase k e e' (by omega) he he']
  | succ d ih =>
    by_cases hb : base < k + (d + 1 : Nat)
    · obtain ⟨p, hp, hbelow⟩ := h _ e hb he
      obtain ⟨p', hp', hbelow'⟩ := h' _ e' hb he'
      obtain ⟨rfl, -⟩ := hL _ p p' e e' hp hp' ht
      have hd1 : k + (d + 1 : Nat) - 1 = k + (d : Nat) := by omega
      rw [hd1] at hbelow hbelow'
      obtain ⟨f, hf⟩ := Option.isSome_iff_exists.mp
        (hd k (k + (d : Nat)) (k + (d + 1 : Nat)) (by omega) (by omega) hs (by rw [he]; rfl))
      obtain ⟨f', hf'⟩ := Option.isSome_iff_exists.mp
        (hd' k (k + (d : Nat)) (k + (d + 1 : Nat)) (by omega) (by omega) hs' (by rw [he']; rfl))
      exact ih ((hbelow f hf).trans (hbelow' f' hf').symm) hf hf' (by omega)
    · obtain ⟨f, hf⟩ := Option.isSome_iff_exists.mp hs
      obtain ⟨f', hf'⟩ := Option.isSome_iff_exists.mp hs'
      rw [hf, hf', hbase k f f' (by omega) hf hf']

end Chains
