-- The members of a cluster over all updates: each server is in one place, once. Their
-- string reads back when no name has a separator in it, and parseServer lets such names
-- through.
import QuarkDB.JournalMembership

namespace quarkdb

/-! ## Updates -/

/-- An update of the members, with the server it is about. -/
inductive MembersUpdate
  | addObserver (server : RaftServer)
  | removeMember (server : RaftServer)
  | promoteObserver (server : RaftServer)
  | demoteToObserver (server : RaftServer)

namespace MembersUpdate

def target : MembersUpdate → RaftServer
  | addObserver server => server
  | removeMember server => server
  | promoteObserver server => server
  | demoteToObserver server => server

def apply (m : RaftMembers) : MembersUpdate → Except Bytes RaftMembers
  | addObserver server => m.addObserver server
  | removeMember server => m.removeMember server
  | promoteObserver server => m.promoteObserver server
  | demoteToObserver server => m.demoteToObserver server

end MembersUpdate

namespace RaftMembers

/-- The members that some updates make of the first list. Each update comes from a leader,
which is one of the nodes then, is not about that leader, and about a server that
`parseServer` accepted. -/
inductive Reached (initial : List RaftServer) : List MembersUpdate → RaftMembers → Prop
  | initial : Reached initial [] { nodes := initial }
  | update {updates : List MembersUpdate} {m m' : RaftMembers} {leader : RaftServer}
      {update : MembersUpdate} {str : Bytes} (h : Reached initial updates m)
      (leads : leader ∈ m.nodes) (other : update.target ≠ leader)
      (parsed : parseServer str = some update.target) (ok : update.apply m = .ok m') :
      Reached initial (updates ++ [update]) m'

/-! ## Each server is in one place -/

/-- Nodes and observers have no duplicates and nothing in common, and there is a node. -/
structure Apart (m : RaftMembers) : Prop where
  nodes : m.nodes.Nodup
  observers : m.observers.Nodup
  disjoint : m.nodes.Disjoint m.observers
  nonempty : m.nodes ≠ []

variable {m m' : RaftMembers} {server leader : RaftServer}

theorem apart_addObserver (h : m.Apart) (hok : m.addObserver server = .ok m') : m'.Apart := by
  unfold addObserver at hok
  split at hok
  · cases hok
  split at hok
  · cases hok
  rename_i ho hn
  cases hok
  refine ⟨h.nodes, ?_, ?_, h.nonempty⟩
  · rw [List.nodup_append]
    refine ⟨h.observers, List.nodup_singleton _, fun s hs s' hs' => ?_⟩
    rintro rfl
    rw [List.mem_singleton.mp hs'] at hs
    exact ho hs
  · intro s hs hs'
    rcases List.mem_append.mp hs' with hs' | hs'
    · exact h.disjoint hs hs'
    · rw [List.mem_singleton.mp hs'] at hs
      exact hn hs

/-- A leader that is not removed is still a node. -/
theorem ne_nil_erase (hl : leader ∈ m.nodes) (hne : server ≠ leader) :
    m.nodes.erase server ≠ [] := by
  intro he
  have hmem : leader ∈ m.nodes.erase server := (List.mem_erase_of_ne hne.symm).mpr hl
  rw [he] at hmem
  cases hmem

theorem apart_removeMember (h : m.Apart) (hl : leader ∈ m.nodes) (hne : server ≠ leader)
    (hok : m.removeMember server = .ok m') : m'.Apart := by
  unfold removeMember at hok
  split at hok
  · cases hok
    exact ⟨h.nodes, h.observers.erase _, fun s hs hs' => h.disjoint hs (List.mem_of_mem_erase hs'),
      h.nonempty⟩
  split at hok
  · cases hok
    exact ⟨h.nodes.erase _, h.observers, fun s hs hs' => h.disjoint (List.mem_of_mem_erase hs) hs',
      ne_nil_erase hl hne⟩
  · cases hok

/-- A server that moves from one list without duplicates to another. -/
theorem apart_move {a b : List RaftServer} (ha : a.Nodup) (hb : b.Nodup) (hd : a.Disjoint b)
    (hm : server ∈ a) : (a.erase server).Nodup ∧ (b ++ [server]).Nodup ∧
      (a.erase server).Disjoint (b ++ [server]) := by
  refine ⟨ha.erase _, ?_, fun s hs hs' => ?_⟩
  · rw [List.nodup_append]
    refine ⟨hb, List.nodup_singleton _, fun s hs s' hs' => ?_⟩
    rintro rfl
    rw [List.mem_singleton.mp hs'] at hs
    exact hd hm hs
  · rcases List.mem_append.mp hs' with hs' | hs'
    · exact hd (List.mem_of_mem_erase hs) hs'
    · exact (ha.mem_erase_iff.mp hs).1 (List.mem_singleton.mp hs')

theorem apart_promoteObserver (h : m.Apart) (hok : m.promoteObserver server = .ok m') :
    m'.Apart := by
  unfold promoteObserver at hok
  split at hok
  · rename_i hm
    cases hok
    obtain ⟨h1, h2, h3⟩ := apart_move h.observers h.nodes h.disjoint.symm hm
    exact ⟨h2, h1, h3.symm, by simp⟩
  · cases hok

theorem apart_demoteToObserver (h : m.Apart) (hl : leader ∈ m.nodes) (hne : server ≠ leader)
    (hok : m.demoteToObserver server = .ok m') : m'.Apart := by
  unfold demoteToObserver at hok
  split at hok
  · rename_i hm
    cases hok
    obtain ⟨h1, h2, h3⟩ := apart_move h.nodes h.observers h.disjoint hm
    exact ⟨h1, h2, h3, ne_nil_erase hl hne⟩
  · cases hok

theorem apart_apply (h : m.Apart) {update : MembersUpdate} (hl : leader ∈ m.nodes)
    (hne : update.target ≠ leader) (hok : update.apply m = .ok m') : m'.Apart := by
  cases update with
  | addObserver server => exact apart_addObserver h hok
  | removeMember server => exact apart_removeMember h hl hne hok
  | promoteObserver server => exact apart_promoteObserver h hok
  | demoteToObserver server => exact apart_demoteToObserver h hl hne hok

theorem apart_reached {initial : List RaftServer} (hd : initial.Nodup) (hne : initial ≠ [])
    {updates : List MembersUpdate} (h : Reached initial updates m) : m.Apart := by
  induction h with
  | initial => exact ⟨hd, List.nodup_nil, by simp [List.Disjoint], hne⟩
  | update _ leads other _ ok ih => exact apart_apply ih leads other ok

/-! ## The servers come from somewhere -/

/-- A server that the updates make a member was one before, or is the one that was added. -/
theorem mem_apply {update : MembersUpdate} (hok : update.apply m = .ok m') {s : RaftServer}
    (hs : s ∈ m'.nodes ∨ s ∈ m'.observers) :
    (s ∈ m.nodes ∨ s ∈ m.observers) ∨ update = .addObserver s := by
  cases update with
  | addObserver server =>
    simp only [MembersUpdate.apply, addObserver] at hok
    split at hok
    · cases hok
    split at hok
    · cases hok
    cases hok
    simp only [List.mem_append, List.mem_singleton] at hs
    rcases hs with hs | hs | rfl
    · exact .inl (.inl hs)
    · exact .inl (.inr hs)
    · exact .inr rfl
  | removeMember server =>
    simp only [MembersUpdate.apply, removeMember] at hok
    split at hok
    · cases hok
      exact .inl (hs.imp_right List.mem_of_mem_erase)
    split at hok
    · cases hok
      exact .inl (hs.imp_left List.mem_of_mem_erase)
    · cases hok
  | promoteObserver server =>
    simp only [MembersUpdate.apply, promoteObserver] at hok
    split at hok
    · rename_i hm
      cases hok
      simp only [List.mem_append, List.mem_singleton] at hs
      rcases hs with (hs | rfl) | hs
      · exact .inl (.inl hs)
      · exact .inl (.inr hm)
      · exact .inl (.inr (List.mem_of_mem_erase hs))
    · cases hok
  | demoteToObserver server =>
    simp only [MembersUpdate.apply, demoteToObserver] at hok
    split at hok
    · rename_i hm
      cases hok
      simp only [List.mem_append, List.mem_singleton] at hs
      rcases hs with hs | hs | rfl
      · exact .inl (.inl (List.mem_of_mem_erase hs))
      · exact .inl (.inr hs)
      · exact .inl (.inl hm)
    · cases hok

theorem mem_reached {initial : List RaftServer} {updates : List MembersUpdate}
    (h : Reached initial updates m) {s : RaftServer} (hs : s ∈ m.nodes ∨ s ∈ m.observers) :
    s ∈ initial ∨ .addObserver s ∈ updates := by
  induction h with
  | initial => simpa using hs
  | update _ _ _ _ ok ih =>
    rcases mem_apply ok hs with hs | rfl
    · rcases ih hs with hs | hs
      · exact .inl hs
      · exact .inr (List.mem_append_left _ hs)
    · exact .inr (List.mem_append_right _ (List.mem_singleton_self _))

/-! ## The string of the members -/

theorem parse_of_mapM {parts : List Bytes} {servers : List RaftServer}
    (h : parts.mapM parseServer = some servers) {part : Bytes} (hp : part ∈ parts) :
    ∃ s, parseServer part = some s := by
  induction parts generalizing servers with
  | nil => cases hp
  | cons first parts ih =>
    rw [List.mapM_cons] at h
    obtain ⟨s, hs, h⟩ := Option.bind_eq_some_iff.mp h
    obtain ⟨rest, hrest, -⟩ := Option.bind_eq_some_iff.mp h
    rcases List.mem_cons.mp hp with rfl | hp
    · exact ⟨s, hs⟩
    · exact ih hrest hp

/-- A server without a name leaves an empty part, which is no server. -/
theorem named_of_parseServers {servers : List RaftServer} (hne : servers ≠ [])
    (h : parseServers (serializeNodes servers) = some servers) :
    ∀ s ∈ servers, s.hostname ≠ [] := by
  intro s hs hname
  obtain ⟨-, -, hall⟩ := parseServers_some h
  have hsplit : split (serializeNodes servers) 44 = servers.map RaftServer.toBytes := by
    apply List.splitOn_intercalate
    · intro part hpart
      obtain ⟨t, ht, rfl⟩ := List.mem_map.mp hpart
      have hdecimal := not_mem_decimal (show isDigit 44 = false by decide) (by decide) t.port.toInt
      unfold RaftServer.toBytes
      split
      · simp
      · simp [(hall t ht).2.1, hdecimal]
    · simpa using hne
  unfold parseServers at h
  rw [hsplit] at h
  obtain ⟨servers', hmap, -⟩ := Option.bind_eq_some_iff.mp h
  obtain ⟨t, ht⟩ := parse_of_mapM hmap (List.mem_map_of_mem (f := RaftServer.toBytes) hs)
  rw [RaftServer.toBytes, if_pos hname] at ht
  cases ht

/-- The two parts of the string of the members, when it has two. -/
theorem parts_of_split {first second : Bytes} (h : split m.toBytes 124 = [first, second]) :
    first = serializeNodes m.nodes ∧ second = serializeNodes m.observers := by
  have hsplit : (serializeNodes m.nodes).splitOn 124 ++ (serializeNodes m.observers).splitOn 124 =
      [first, second] := by
    rw [← h, toBytes, show ascii "|" = [124] by decide, List.append_assoc, List.singleton_append,
      split, List.splitOn_append_cons_self]
  obtain ⟨x, xs, hx⟩ := List.exists_cons_of_ne_nil (List.splitOn_ne_nil 124 (serializeNodes m.nodes))
  obtain ⟨y, ys, hy⟩ :=
    List.exists_cons_of_ne_nil (List.splitOn_ne_nil 124 (serializeNodes m.observers))
  have hjoin : [124].intercalate ((serializeNodes m.nodes).splitOn 124) = serializeNodes m.nodes :=
    List.intercalate_splitOn 124
  have hjoin' : [124].intercalate ((serializeNodes m.observers).splitOn 124) =
      serializeNodes m.observers := List.intercalate_splitOn 124
  rw [hx, hy] at hsplit
  rw [hx] at hjoin
  rw [hy] at hjoin'
  cases xs with
  | nil =>
    simp only [List.cons_append, List.nil_append, List.cons.injEq] at hsplit
    obtain ⟨rfl, rfl, rfl⟩ := hsplit
    exact ⟨by simpa using hjoin, by simpa using hjoin'⟩
  | cons x' xs =>
    exfalso
    simp at hsplit

/-- The string reads back exactly when no name is empty or has a separator in it. -/
theorem parse_toBytes_iff (h : m.Apart) :
    RaftMembers.parse m.toBytes = some m ↔ ∀ s, s ∈ m.nodes ∨ s ∈ m.observers → s.Clean := by
  constructor
  · intro hp s hs
    obtain ⟨-, -, -, hall⟩ := parse_some hp
    obtain ⟨first, second, hsplit⟩ : ∃ first second, split m.toBytes 124 = [first, second] := by
      unfold RaftMembers.parse at hp
      split at hp
      · exact ⟨_, _, ‹_›⟩
      · cases hp
    obtain ⟨rfl, rfl⟩ := parts_of_split hsplit
    rw [parse_eq hsplit] at hp
    obtain ⟨nodes, hnodes, hp⟩ := Option.bind_eq_some_iff.mp hp
    obtain ⟨observers, hobservers, hp⟩ := Option.bind_eq_some_iff.mp hp
    have hm := Option.some.inj hp
    have hn : nodes = m.nodes := congrArg RaftMembers.nodes hm
    have ho : observers = m.observers := congrArg RaftMembers.observers hm
    rw [hn] at hnodes
    rw [ho] at hobservers
    refine ⟨?_, hall s hs⟩
    rcases hs with hs | hs
    · exact named_of_parseServers h.nonempty hnodes s hs
    · split at hobservers
      · rw [← Option.some.inj hobservers] at hs
        cases hs
      · exact named_of_parseServers (List.ne_nil_of_mem hs) hobservers s hs
  · intro hclean
    exact parse_toBytes_clean h.nonempty h.nodes h.observers (fun s hs => hclean s (.inl hs))
      fun s hs => hclean s (.inr hs)

/-- Whatever updates the leaders make, each server is in one place, once, and there is a node.
The string of the members reads back if and only if each of them has a name without a
separator; and it always does when the first servers have such names, and all that are
added. -/
theorem the_members_read_back_iff_their_names_are_clean {initial : List RaftServer}
    (hd : initial.Nodup) (hne : initial ≠ []) {updates : List MembersUpdate}
    (h : Reached initial updates m) :
    (m.nodes.Nodup ∧ m.observers.Nodup ∧ m.nodes.Disjoint m.observers ∧ m.nodes ≠ []) ∧
    (RaftMembers.parse m.toBytes = some m ↔ ∀ s, s ∈ m.nodes ∨ s ∈ m.observers → s.Clean) ∧
    ((∀ s ∈ initial, s.Clean) → (∀ s, .addObserver s ∈ updates → s.Clean) →
      RaftMembers.parse m.toBytes = some m) := by
  have ha := apart_reached hd hne h
  have hiff := parse_toBytes_iff ha
  refine ⟨⟨ha.nodes, ha.observers, ha.disjoint, ha.nonempty⟩, hiff, fun hi hu => ?_⟩
  refine hiff.mpr fun s hs => ?_
  rcases mem_reached h hs with hs | hs
  · exact hi s hs
  · exact hu s hs

/-- A second server joins a cluster of one. -/
theorem two_members_read_back :
    let s1 : RaftServer := ⟨ascii "s1", 7776⟩
    let s2 : RaftServer := ⟨ascii "s2", 7777⟩
    Reached [s1] [.addObserver s2, .promoteObserver s2] { nodes := [s1, s2] } ∧
      RaftMembers.parse (ascii "s1:7776,s2:7777|") = some { nodes := [s1, s2] } := by
  intro s1 s2
  have hadd : Reached [s1] ([] ++ [.addObserver s2]) { nodes := [s1], observers := [s2] } :=
    .update .initial (List.mem_singleton_self s1) (by decide)
      (show parseServer (ascii "s2:7777") = some s2 by decide +kernel) rfl
  have hpromote : Reached [s1] ([] ++ [.addObserver s2] ++ [.promoteObserver s2])
      { nodes := [s1, s2] } :=
    .update hadd (List.mem_singleton_self s1) (by decide)
      (show parseServer (ascii "s2:7777") = some s2 by decide +kernel) rfl
  refine ⟨hpromote, ?_⟩
  have hclean : s1.Clean ∧ s2.Clean := by
    unfold RaftServer.Clean
    decide
  have hstring : RaftMembers.toBytes { nodes := [s1, s2] } = ascii "s1:7776,s2:7777|" := by
    decide +kernel
  rw [← hstring]
  apply (the_members_read_back_iff_their_names_are_clean (by decide) (by simp) hpromote).2.2
  · intro s hs
    rw [List.mem_singleton.mp hs]
    exact hclean.1
  · intro s hs
    simp at hs
    rw [hs]
    exact hclean.2

/-- `a|b:7777` is accepted as a server. The members with it cannot be read, and the append of
the leader throws. -/
theorem a_name_with_a_bar_is_accepted_and_cannot_be_read :
    let s1 : RaftServer := ⟨ascii "s1", 7776⟩
    let s2 : RaftServer := ⟨ascii "a|b", 7777⟩
    ∃ m new, Reached [s1] [.addObserver s2] m ∧ RaftMembers.parse m.toBytes = none ∧
      RaftJournal.obliterate (ascii "id") [s1] 0 = .ok new ∧
      ((RaftJournal.addObserver 0 s2).on new).1 =
        .error (.thrown "corruption, cannot parse members: ") := by
  intro s1 s2
  have hadd : Reached [s1] ([] ++ [.addObserver s2]) { nodes := [s1], observers := [s2] } :=
    .update .initial (List.mem_singleton_self s1) (by decide)
      (show parseServer (ascii "a|b:7777") = some s2 by decide +kernel) rfl
  obtain ⟨new, hnew, hthrow⟩ : ∃ new,
      RaftJournal.obliterate (ascii "id") [⟨ascii "s1", 7776⟩] 0 = .ok new ∧
      ((RaftJournal.addObserver 0 ⟨ascii "a|b", 7777⟩).on new).1 =
        .error (.thrown "corruption, cannot parse members: ") := ⟨_, rfl, rfl⟩
  exact ⟨_, new, hadd, by decide +kernel, hnew, hthrow⟩

end RaftMembers

end quarkdb
