-- The members that a journal works with are those of its log: the last membership
-- entry decides, also after a truncation took one back.
import QuarkDB.JournalLaws

namespace quarkdb

/-! ## Members that read back -/

theorem not_mem_of_splitOn {a : UInt8} {s part : Bytes} (h : part ∈ s.splitOn a) : a ∉ part := by
  induction s generalizing part with
  | nil => simp at h; simp [h]
  | cons c s ih =>
    rw [List.splitOn_cons_eq_if_modifyHead] at h
    split at h
    · rcases List.mem_cons.mp h with rfl | h
      · simp
      · exact ih h
    · next hc =>
      obtain ⟨first, rest, hs⟩ := List.exists_cons_of_ne_nil (List.splitOn_ne_nil a s)
      rw [hs] at h ih
      simp only [List.modifyHead_cons, List.mem_cons] at h
      rcases h with rfl | h
      · have := @ih first (by simp)
        simp only [beq_iff_eq] at hc
        simp [this, Ne.symm hc]
      · exact ih (by simp [h])

theorem mem_of_splitOn {a c : UInt8} {s part : Bytes} (h : part ∈ s.splitOn a) (hc : c ∈ part) :
    c ∈ s := by
  induction s generalizing part with
  | nil => simp at h; simp [h] at hc
  | cons b s ih =>
    rw [List.splitOn_cons_eq_if_modifyHead] at h
    split at h
    · rcases List.mem_cons.mp h with rfl | h
      · simp at hc
      · exact List.mem_cons_of_mem _ (ih h hc)
    · obtain ⟨first, rest, hs⟩ := List.exists_cons_of_ne_nil (List.splitOn_ne_nil a s)
      rw [hs] at h ih
      simp only [List.modifyHead_cons, List.mem_cons] at h
      rcases h with rfl | h
      · rcases List.mem_cons.mp hc with rfl | hc
        · simp
        · exact List.mem_cons_of_mem _ (ih (by simp) hc)
      · exact List.mem_cons_of_mem _ (ih (by simp [h]) hc)

theorem not_mem_decimal {c : UInt8} (h : isDigit c = false) (hm : c ≠ 45) (n : Int) :
    c ∉ decimal n := by
  have hd : c ∉ digitsOf n.natAbs := by
    intro hc
    rw [isDigit_of_mem_digitsOf hc] at h
    cases h
  unfold decimal
  split <;> simp [hd, hm]

/-- A server whose name has none of the separators and is not empty. -/
def RaftServer.Clean (s : RaftServer) : Prop :=
  s.hostname ≠ [] ∧ 58 ∉ s.hostname ∧ 44 ∉ s.hostname ∧ 124 ∉ s.hostname

theorem RaftServer.toBytes_clean {s : RaftServer} (h : s.Clean) :
    s.toBytes = s.hostname ++ 58 :: decimal s.port.toInt := by
  rw [RaftServer.toBytes, if_neg h.1]

theorem parseServer_clean {s : RaftServer} (h : s.Clean) : parseServer s.toBytes = some s := by
  have hport : parseInt64 (decimal s.port.toInt) = some s.port.toInt := by
    have h1 := Int32.le_toInt s.port
    have h2 := Int32.toInt_lt s.port
    exact parseInt64_decimal (by omega) (by omega)
  rw [parseServer, RaftServer.toBytes_clean h, split,
    List.splitOn_append_cons_self_of_not_mem h.2.1,
    List.splitOn_eq_singleton (colon_not_mem_decimal _)]
  simp [hport]

theorem separator_not_mem {s : RaftServer} (h : s.Clean) : 44 ∉ s.toBytes ∧ 124 ∉ s.toBytes := by
  have h1 := not_mem_decimal (show isDigit 44 = false by decide) (by decide) s.port.toInt
  have h2 := not_mem_decimal (show isDigit 124 = false by decide) (by decide) s.port.toInt
  rw [RaftServer.toBytes_clean h]
  constructor
  · simp [h.2.2.1, h1]
  · simp [h.2.2.2, h2]

theorem parseServers_clean {nodes : List RaftServer} (hne : nodes ≠ []) (hd : nodes.Nodup)
    (h : ∀ s ∈ nodes, s.Clean) : parseServers (serializeNodes nodes) = some nodes := by
  have hsplit : split (serializeNodes nodes) 44 = nodes.map RaftServer.toBytes := by
    apply List.splitOn_intercalate
    · intro part hpart
      obtain ⟨s, hs, rfl⟩ := List.mem_map.mp hpart
      exact (separator_not_mem (h s hs)).1
    · simpa using hne
  have hmap : (nodes.map RaftServer.toBytes).mapM parseServer = some nodes := by
    clear hne hd hsplit
    induction nodes with
    | nil => rfl
    | cons s nodes ih =>
      have hs := parseServer_clean (h s (by simp))
      have hrest := ih fun s' hs' => h s' (by simp [hs'])
      simp [List.mapM_cons, hs, hrest]
  rw [parseServers, hsplit, hmap]
  simp [hd]

theorem parseServer_some {part : Bytes} {s : RaftServer} (h : parseServer part = some s) :
    58 ∉ s.hostname ∧ ∀ c ∈ s.hostname, c ∈ part := by
  unfold parseServer at h
  split at h
  · rename_i hostname port hp
    obtain ⟨n, -, hs⟩ := Option.bind_eq_some_iff.mp h
    cases hs
    have hmem : hostname ∈ part.splitOn 58 := by
      show hostname ∈ split part 58
      rw [hp]
      simp
    exact ⟨not_mem_of_splitOn hmem, fun c hc => mem_of_splitOn hmem hc⟩
  · cases h

/-- Each server of a list that was parsed comes from one part. -/
theorem mapM_parseServer_some {parts : List Bytes} {servers : List RaftServer}
    (h : parts.mapM parseServer = some servers) :
    servers.length = parts.length ∧ ∀ s ∈ servers, ∃ part ∈ parts, parseServer part = some s := by
  induction parts generalizing servers with
  | nil =>
    cases h
    simp
  | cons part parts ih =>
    rw [List.mapM_cons] at h
    obtain ⟨s, hs, h⟩ := Option.bind_eq_some_iff.mp h
    obtain ⟨rest, hrest, h⟩ := Option.bind_eq_some_iff.mp h
    cases h
    obtain ⟨hlen, hmem⟩ := ih hrest
    refine ⟨by simp [hlen], fun s' hs' => ?_⟩
    rcases List.mem_cons.mp hs' with rfl | hs'
    · exact ⟨part, by simp, hs⟩
    · obtain ⟨part', hp', he⟩ := hmem s' hs'
      exact ⟨part', by simp [hp'], he⟩

/-- What a list of servers that was parsed is made of. -/
theorem parseServers_some {str : Bytes} {servers : List RaftServer}
    (h : parseServers str = some servers) :
    servers ≠ [] ∧ servers.Nodup ∧
      ∀ s ∈ servers, 58 ∉ s.hostname ∧ 44 ∉ s.hostname ∧ ∀ c ∈ s.hostname, c ∈ str := by
  unfold parseServers at h
  obtain ⟨servers', hm, h⟩ := Option.bind_eq_some_iff.mp h
  obtain ⟨hd, h⟩ := Option.ite_none_right_eq_some.mp h
  cases h
  obtain ⟨hlen, hall⟩ := mapM_parseServer_some hm
  refine ⟨?_, hd, fun s hs => ?_⟩
  · rintro rfl
    exact List.splitOn_ne_nil 44 str (List.eq_nil_of_length_eq_zero hlen.symm)
  · obtain ⟨part, hpart, hp⟩ := hall s hs
    obtain ⟨h58, hsub⟩ := parseServer_some hp
    exact ⟨h58, fun h44 => not_mem_of_splitOn hpart (hsub 44 h44),
      fun c hc => mem_of_splitOn hpart (hsub c hc)⟩

/-- Every server of these members has a host name. -/
def RaftMembers.Named (m : RaftMembers) : Prop :=
  (∀ s ∈ m.nodes, s.hostname ≠ []) ∧ ∀ s ∈ m.observers, s.hostname ≠ []

theorem not_mem_serializeNodes {c : UInt8} {nodes : List RaftServer} (hc : c ≠ 44)
    (h : ∀ s ∈ nodes, c ∉ s.toBytes) : c ∉ serializeNodes nodes := by
  unfold serializeNodes
  induction nodes with
  | nil => simp
  | cons s nodes ih =>
    have hs := h s (by simp)
    have ih := ih fun s' hs' => h s' (by simp [hs'])
    cases nodes with
    | nil => simpa using hs
    | cons s' nodes =>
      have hcomma : c ∉ ascii "," := by
        rw [show ascii "," = [44] by decide]
        simpa using hc
      simp only [List.map_cons, List.intercalate_cons_cons, List.mem_append, not_or]
      exact ⟨⟨hs, hcomma⟩, by simpa using ih⟩

/-- The two lists that the string of the members is made of. -/
theorem RaftMembers.parse_eq {str first second : Bytes} (h : split str 124 = [first, second]) :
    RaftMembers.parse str = (parseServers first).bind fun nodes =>
      (if second = [] then some [] else parseServers second).bind fun observers =>
        some { nodes, observers } := by
  unfold RaftMembers.parse
  rw [h]
  by_cases hs : second = [] <;> simp [hs]

/-- The string of the members, up to the bar and behind it. -/
theorem RaftMembers.split_toBytes {m : RaftMembers} (h : ∀ s ∈ m.nodes, (124 : UInt8) ∉ s.toBytes) :
    split m.toBytes 124 = serializeNodes m.nodes :: (serializeNodes m.observers).splitOn 124 := by
  have hout : (124 : UInt8) ∉ serializeNodes m.nodes := not_mem_serializeNodes (by decide) h
  unfold RaftMembers.toBytes
  rw [show ascii "|" = [124] by decide, List.append_assoc, List.singleton_append, split,
    List.splitOn_append_cons_self_of_not_mem hout]

/-- Members that are all clean read back from their own string. -/
theorem RaftMembers.parse_toBytes_clean {m : RaftMembers} (hne : m.nodes ≠ [])
    (hn : m.nodes.Nodup) (ho : m.observers.Nodup) (hclean : ∀ s ∈ m.nodes, s.Clean)
    (hclean' : ∀ s ∈ m.observers, s.Clean) : RaftMembers.parse m.toBytes = some m := by
  have hwrite := RaftMembers.split_toBytes fun s hs => (separator_not_mem (hclean s hs)).2
  have hread : parseServers (serializeNodes m.nodes) = some m.nodes := parseServers_clean hne hn hclean
  have hout : (124 : UInt8) ∉ serializeNodes m.observers :=
    not_mem_serializeNodes (by decide) fun s hs => (separator_not_mem (hclean' s hs)).2
  rw [List.splitOn_eq_singleton hout] at hwrite
  rw [RaftMembers.parse_eq hwrite, hread]
  by_cases hs : m.observers = []
  · obtain ⟨nodes, observers⟩ := m
    cases hs
    rfl
  · have hread' := parseServers_clean hs ho hclean'
    have hsome : serializeNodes m.observers ≠ [] := by
      intro he
      rw [he] at hread'
      cases hread'
    rw [if_neg hsome, hread']
    rfl

/-- What members that were read are made of. -/
theorem RaftMembers.parse_some {str : Bytes} {m : RaftMembers}
    (h : RaftMembers.parse str = some m) :
    m.nodes ≠ [] ∧ m.nodes.Nodup ∧ m.observers.Nodup ∧
      ∀ s, s ∈ m.nodes ∨ s ∈ m.observers →
        58 ∉ s.hostname ∧ 44 ∉ s.hostname ∧ 124 ∉ s.hostname := by
  obtain ⟨first, second, hsplit⟩ : ∃ first second, split str 124 = [first, second] := by
    unfold RaftMembers.parse at h
    split at h
    · exact ⟨_, _, ‹_›⟩
    · cases h
  rw [RaftMembers.parse_eq hsplit] at h
  obtain ⟨nodes, hnodes, h⟩ := Option.bind_eq_some_iff.mp h
  obtain ⟨observers, hobservers, h⟩ := Option.bind_eq_some_iff.mp h
  cases h
  have hbar : ∀ part ∈ [first, second], 124 ∉ part := by
    intro part hpart
    rw [← hsplit] at hpart
    exact not_mem_of_splitOn hpart
  obtain ⟨hne, hnd, hall⟩ := parseServers_some hnodes
  have hout : ∀ s ∈ nodes, 58 ∉ s.hostname ∧ 44 ∉ s.hostname ∧ 124 ∉ s.hostname := fun s hs =>
    ⟨(hall s hs).1, (hall s hs).2.1, fun hc => hbar first (by simp) ((hall s hs).2.2 _ hc)⟩
  by_cases hs : second = []
  · rw [if_pos hs] at hobservers
    cases hobservers
    refine ⟨hne, hnd, List.nodup_nil, fun s hs => ?_⟩
    rcases hs with hs | hs
    · exact hout s hs
    · cases hs
  · rw [if_neg hs] at hobservers
    obtain ⟨-, hnd', hall'⟩ := parseServers_some hobservers
    refine ⟨hne, hnd, hnd', fun s hs => ?_⟩
    rcases hs with hs | hs
    · exact hout s hs
    · exact ⟨(hall' s hs).1, (hall' s hs).2.1,
        fun hc => hbar second (by simp) ((hall' s hs).2.2 _ hc)⟩

/-- Members that were read, and that are all named, read back from their own string. -/
theorem RaftMembers.parse_toBytes {str : Bytes} {m : RaftMembers}
    (h : RaftMembers.parse str = some m) (hn : m.Named) :
    RaftMembers.parse m.toBytes = some m := by
  obtain ⟨hne, hnd, hnd', hall⟩ := RaftMembers.parse_some h
  refine RaftMembers.parse_toBytes_clean hne hnd hnd' (fun s hs => ?_) fun s hs => ?_
  · exact ⟨hn.1 s hs, hall s (.inl hs)⟩
  · exact ⟨hn.2 s hs, hall s (.inr hs)⟩

namespace RaftJournal

/-! ## Membership entries -/

/-- The entry sets the members of this cluster to what `serialized` says. -/
def UpdateOf (clusterID : RaftClusterID) (entry : RaftEntry) (serialized : Bytes) : Prop :=
  entry.request = [ascii "JOURNAL_UPDATE_MEMBERS", serialized, clusterID]

/-- An index at which a membership entry of this cluster is stored. -/
def UpdatedAt (j : RaftJournal) (i : Int) : Prop :=
  ∃ entry serialized, j.db.entries i = some entry ∧ UpdateOf j.clusterID entry serialized

/-- The log has a membership entry at `i` that says `members`. -/
def UpdatesTo (j : RaftJournal) (i : Int) (members : RaftMembers) : Prop :=
  ∃ entry serialized, j.db.entries i = some entry ∧ UpdateOf j.clusterID entry serialized ∧
    RaftMembers.parse serialized = some members

/-- At most one membership entry is not committed. -/
def OneUncommitted (j : RaftJournal) : Prop :=
  ∀ i k, j.commitIndex < i → j.commitIndex < k → UpdatedAt j i → UpdatedAt j k → i = k

/-- Every server in a membership entry of the log has a host name. -/
def HostsNamed (j : RaftJournal) : Prop :=
  ∀ i members, UpdatesTo j i members → members.Named

/-- The members and their epoch are those of the last membership entry of the log,
in memory and on disk. -/
structure InForce (j : RaftJournal) : Prop where
  at_epoch : UpdatesTo j j.membershipEpoch j.members
  last : ∀ i, UpdatedAt j i → i ≤ j.membershipEpoch
  epoch_on_disk : j.db.membershipEpoch = j.membershipEpoch
  members_on_disk : RaftMembers.parse j.db.members = some j.members

/-- What the disk holds to go back to: the membership entry before the last one. -/
def PreviousKept (j : RaftJournal) : Prop :=
  ∃ epoch serialized members,
    j.db.previousMembershipEpoch = some epoch ∧ j.db.previousMembers = some serialized ∧
    RaftMembers.parse serialized = some members ∧ epoch < j.membershipEpoch ∧
    UpdatesTo j epoch members ∧ ∀ i < j.membershipEpoch, UpdatedAt j i → i ≤ epoch

/-- The invariant: while the members in force are not committed there is a way back. -/
structure Settled (j : RaftJournal) : Prop where
  good : Good j
  in_force : InForce j
  previous : j.commitIndex < j.membershipEpoch → PreviousKept j

theorem UpdatesTo.updatedAt {j : RaftJournal} {i : Int} {members : RaftMembers}
    (h : UpdatesTo j i members) : UpdatedAt j i := by
  obtain ⟨entry, serialized, he, hu, -⟩ := h
  exact ⟨entry, serialized, he, hu⟩

theorem UpdatedAt.stored {j : RaftJournal} {i : Int} (hs : StoredExactly j) (h : UpdatedAt j i) :
    j.logStart ≤ i ∧ i < j.logSize := by
  obtain ⟨entry, serialized, he, -⟩ := h
  exact (hs i).mp (by simp [he])

/-- The entries decide the members. -/
theorem InForce.unique {j k : RaftJournal} (hj : InForce j) (hk : InForce k)
    (hid : j.clusterID = k.clusterID) (he : j.db.entries = k.db.entries) :
    j.members = k.members ∧ j.membershipEpoch = k.membershipEpoch := by
  have hat : ∀ i, UpdatedAt j i ↔ UpdatedAt k i := by
    intro i
    unfold UpdatedAt
    rw [hid, he]
  have hepoch : j.membershipEpoch = k.membershipEpoch :=
    le_antisymm (hk.last _ ((hat _).mp hj.at_epoch.updatedAt))
      (hj.last _ ((hat _).mpr hk.at_epoch.updatedAt))
  obtain ⟨entry, serialized, h1, h2, h3⟩ := hj.at_epoch
  obtain ⟨entry', serialized', h1', h2', h3'⟩ := hk.at_epoch
  rw [hepoch, he, h1'] at h1
  cases h1
  have hs : serialized' = serialized := by
    rw [UpdateOf, h2'] at h2
    simp only [List.cons.injEq, true_and, and_true] at h2
    exact h2.1
  rw [← hs, h3'] at h3
  exact ⟨(Option.some.inj h3).symm, hepoch⟩

/-! ## One call -/

/-- A call that leaves the entries and the members as they are. -/
structure SameMembers (j j' : RaftJournal) : Prop where
  entries : j'.db.entries = j.db.entries
  cluster_id : j'.clusterID = j.clusterID
  members : j'.members = j.members
  epoch : j'.membershipEpoch = j.membershipEpoch
  previous : j'.db.previousMembers = j.db.previousMembers
  previous_epoch : j'.db.previousMembershipEpoch = j.db.previousMembershipEpoch
  commit_index : j.commitIndex ≤ j'.commitIndex

theorem settled_of_sameMembers {j j' : RaftJournal} (h : Settled j) (hg : Good j')
    (hs : SameMembers j j') : Settled j' := by
  obtain ⟨-, hf, hp⟩ := h
  obtain ⟨e1, e2, e3, e4, e5, e6, hc⟩ := hs
  refine ⟨hg, ⟨?_, ?_, hg.mirrored.epoch, hg.mirrored.members⟩, ?_⟩
  · simp only [UpdatesTo, e1, e2, e3, e4]
    exact hf.at_epoch
  · simp only [UpdatedAt, e1, e2, e4]
    exact hf.last
  · intro hlt
    simp only [PreviousKept, UpdatesTo, UpdatedAt, e1, e2, e4, e5, e6]
    exact hp (by omega)

theorem updatedAt_withEntry {j j' : RaftJournal} {entry : RaftEntry}
    (he : j'.db.entries = j.db.entries) (hs : j'.logSize = j.logSize)
    (hid : j'.clusterID = j.clusterID) {i : Int} (h : UpdatedAt (j'.withEntry entry) i) :
    UpdatedAt j i ∨ i = j.logSize ∧ ∃ serialized, UpdateOf j.clusterID entry serialized := by
  obtain ⟨entry', serialized, h1, h2⟩ := h
  rw [withEntry_entries, hs, he] at h1
  have h2 : UpdateOf j.clusterID entry' serialized := by
    rw [← hid]
    exact h2
  by_cases hi : i = j.logSize
  · rw [if_pos hi] at h1
    cases h1
    exact .inr ⟨hi, serialized, h2⟩
  · rw [if_neg hi] at h1
    exact .inl ⟨entry', serialized, h1, h2⟩

theorem updatesTo_withEntry {j j' : RaftJournal} {entry : RaftEntry} {members : RaftMembers}
    (hg : StoredExactly j) (he : j'.db.entries = j.db.entries) (hs : j'.logSize = j.logSize)
    (hid : j'.clusterID = j.clusterID) {i : Int} (h : UpdatesTo j i members) :
    UpdatesTo (j'.withEntry entry) i members := by
  have hi := (h.updatedAt.stored hg).2
  obtain ⟨entry', serialized, h1, h2, h3⟩ := h
  refine ⟨entry', serialized, ?_, ?_, h3⟩
  · rw [withEntry_entries, hs, if_neg (by omega), he]
    exact h1
  · show UpdateOf j'.clusterID entry' serialized
    rw [hid]
    exact h2

/-- An entry that does not change the members. -/
theorem settled_withEntry {j : RaftJournal} {entry : RaftEntry} (h : Settled j)
    (hg : Good (j.withEntry entry)) (hn : ∀ serialized, ¬ UpdateOf j.clusterID entry serialized) :
    Settled (j.withEntry entry) := by
  obtain ⟨hgood, hf, hp⟩ := h
  have hback : ∀ i, UpdatedAt (j.withEntry entry) i → UpdatedAt j i := by
    intro i hi
    rcases updatedAt_withEntry rfl rfl rfl hi with hi | ⟨-, serialized, hu⟩
    · exact hi
    · exact absurd hu (hn serialized)
  refine ⟨hg, ⟨updatesTo_withEntry hgood.stored rfl rfl rfl hf.at_epoch, fun i hi => hf.last i (hback i hi),
    hf.epoch_on_disk, hf.members_on_disk⟩, fun hlt => ?_⟩
  obtain ⟨epoch, serialized, members, h1, h2, h3, h4, h5, h6⟩ := hp hlt
  exact ⟨epoch, serialized, members, h1, h2, h3, h4, updatesTo_withEntry hgood.stored rfl rfl rfl h5,
    fun i hi hu => h6 i hi (hback i hu)⟩

/-- A membership entry: the members it replaces are what is kept to go back to. -/
theorem settled_withMembers {j : RaftJournal} {entry : RaftEntry} {serialized : Bytes}
    {members : RaftMembers} (h : Settled j) (hn : HostsNamed j)
    (hg : Good ((j.withMembers j.logSize serialized members).withEntry entry))
    (hu : UpdateOf j.clusterID entry serialized) (hm : RaftMembers.parse serialized = some members) :
    Settled ((j.withMembers j.logSize serialized members).withEntry entry) := by
  obtain ⟨hgood, hf, -⟩ := h
  have hlt := (hf.at_epoch.updatedAt.stored hgood.stored).2
  have hlast : ∀ i, UpdatedAt ((j.withMembers j.logSize serialized members).withEntry entry) i →
      UpdatedAt j i ∨ i = j.logSize := by
    intro i hi
    rcases updatedAt_withEntry rfl rfl rfl hi with hi | ⟨hi, -⟩
    · exact .inl hi
    · exact .inr hi
  refine ⟨hg, ⟨⟨entry, serialized, ?_, hu, hm⟩, ?_, rfl, hm⟩, fun _ => ?_⟩
  · rw [withEntry_entries]
    exact if_pos rfl
  · intro i hi
    show i ≤ j.logSize
    rcases hlast i hi with hi | hi
    · exact le_of_lt (hi.stored hgood.stored).2
    · exact le_of_eq hi
  · refine ⟨j.membershipEpoch, j.members.toBytes, j.members, rfl, rfl, ?_, hlt,
      updatesTo_withEntry hgood.stored rfl rfl rfl hf.at_epoch, ?_⟩
    · obtain ⟨_, _, -, -, hp⟩ := hf.at_epoch
      exact RaftMembers.parse_toBytes hp (hn _ _ hf.at_epoch)
    · intro i hi hu
      have hi : i < j.logSize := hi
      rcases hlast i hu with hu | hu
      · exact hf.last i hu
      · omega

theorem updatedAt_withoutEntries {j : RaftJournal} {first lastTerm : Int} (hg : StoredExactly j) {i : Int} :
    UpdatedAt (j.withoutEntries first lastTerm) i ↔ UpdatedAt j i ∧ i < first := by
  constructor
  · rintro ⟨entry, serialized, h1, h2⟩
    rw [withoutEntries_entries] at h1
    split at h1
    · cases h1
    · have hu : UpdatedAt j i := ⟨entry, serialized, h1, h2⟩
      have := (hu.stored hg).2
      exact ⟨hu, by omega⟩
  · rintro ⟨⟨entry, serialized, h1, h2⟩, hi⟩
    refine ⟨entry, serialized, ?_, h2⟩
    rw [withoutEntries_entries, if_neg (by omega)]
    exact h1

theorem updatesTo_withoutEntries {j : RaftJournal} {first lastTerm : Int} {i : Int}
    {members : RaftMembers} (h : UpdatesTo j i members) (hi : i < first) :
    UpdatesTo (j.withoutEntries first lastTerm) i members := by
  obtain ⟨entry, serialized, h1, h2, h3⟩ := h
  refine ⟨entry, serialized, ?_, h2, h3⟩
  rw [withoutEntries_entries, if_neg (by omega)]
  exact h1

/-- A cut above the membership entry. -/
theorem settled_withoutEntries {j : RaftJournal} {first lastTerm : Int} (h : Settled j)
    (hg : Good (j.withoutEntries first lastTerm)) (hlt : j.membershipEpoch < first) :
    Settled (j.withoutEntries first lastTerm) := by
  obtain ⟨hgood, hf, hp⟩ := h
  refine ⟨hg, ⟨updatesTo_withoutEntries hf.at_epoch hlt,
    fun i hi => hf.last i ((updatedAt_withoutEntries hgood.stored).mp hi).1, hf.epoch_on_disk,
    hf.members_on_disk⟩, fun hc => ?_⟩
  obtain ⟨epoch, serialized, members, h1, h2, h3, h4, h5, h6⟩ := hp hc
  exact ⟨epoch, serialized, members, h1, h2, h3, h4, updatesTo_withoutEntries h5 (by omega),
    fun i hi hu => h6 i hi ((updatedAt_withoutEntries hgood.stored).mp hu).1⟩

/-- The journal with the members it goes back to. -/
def withPrevious (j : RaftJournal) (epoch : Int) (serialized : Bytes) (members : RaftMembers) :
    RaftJournal :=
  { j with
    db := { j.db with membershipEpoch := epoch, members := serialized }
    members := members
    membershipEpoch := epoch }

/-- A cut that takes the membership entry away: the one before it is committed, so
it stays, and it is what was kept to go back to. -/
theorem settled_back {j : RaftJournal} {first lastTerm epoch : Int} {serialized : Bytes}
    {members : RaftMembers} (h : Settled j) (hone : OneUncommitted j)
    (hg : Good ((j.withPrevious epoch serialized members).withoutEntries first lastTerm))
    (hc : j.commitIndex < first) (hf : first ≤ j.membershipEpoch)
    (he : j.db.previousMembershipEpoch = some epoch) (hm : j.db.previousMembers = some serialized)
    (hp : RaftMembers.parse serialized = some members) :
    Settled ((j.withPrevious epoch serialized members).withoutEntries first lastTerm) := by
  obtain ⟨hgood, hin, hprev⟩ := h
  obtain ⟨epoch', serialized', members', h1, h2, h3, h4, h5, h6⟩ := hprev (by omega)
  rw [he, Option.some.injEq] at h1
  rw [hm, Option.some.injEq] at h2
  subst h1 h2
  rw [hp, Option.some.injEq] at h3
  subst h3
  have hle : epoch ≤ j.commitIndex := by
    by_contra hlt
    have := hone epoch j.membershipEpoch (by omega) (by omega) h5.updatedAt hin.at_epoch.updatedAt
    omega
  have hback : ∀ i, UpdatedAt ((j.withPrevious epoch serialized members).withoutEntries first
      lastTerm) i → UpdatedAt j i ∧ i < first := fun i hi =>
    (@updatedAt_withoutEntries (j.withPrevious epoch serialized members) first lastTerm hgood.stored i).mp hi
  refine ⟨hg, ⟨?_, ?_, rfl, hp⟩, ?_⟩
  · have hkeep : epoch < first := by omega
    exact updatesTo_withoutEntries (j := j.withPrevious epoch serialized members) h5 hkeep
  · intro i hi
    obtain ⟨hu, hlt⟩ := hback i hi
    exact h6 i (by omega) hu
  · intro hlt
    have hlt : j.commitIndex < epoch := hlt
    omega

/-! ## Any call but a trim -/

/-- The call does not trim the journal. -/
def KeepsStart : JournalCall → Prop
  | .trimUntil _ => False
  | _ => True

theorem settled_appendNoLock {j : RaftJournal} (h : Settled j) (hn : HostsNamed j) (index : Int)
    (entry : RaftEntry) : Settled ((appendNoLock index entry).on j).2 := by
  have hg := (good_appendNoLock h.good index entry .reopen).1
  rcases appendNoLock_cases h.good.commit_lt_size (size_nonneg h.good) index entry with
    ⟨r, hr, -⟩ | ⟨rfl, -, -, j', htk, hr⟩
  · rw [hr]
    exact h
  · rw [hr] at hg ⊢
    cases htk with
    | other hu =>
      refine settled_withEntry h hg fun serialized hs => ?_
      rw [hs] at hu
      exact absurd hu (by simp [isMembersUpdate])
    | foreign hr' _ hid =>
      refine settled_withEntry h hg fun serialized hs => ?_
      rw [UpdateOf, hr'] at hs
      simp only [List.cons.injEq, and_true] at hs
      exact hid hs.2.2
    | members hr' hu hp =>
      refine settled_withMembers h hn hg ?_ hp
      rw [hr', isMembersUpdate, decide_eq_true_eq, List.head?_cons, Option.some.injEq] at hu
      rw [UpdateOf, hr', hu]

theorem settled_of_append {j j' : RaftJournal} (h : Settled j) (hn : HostsNamed j)
    (hj : j' = j ∨ ∃ entry, j' = ((appendNoLock j.logSize entry).on j).2) : Settled j' := by
  rcases hj with rfl | ⟨entry, rfl⟩
  · exact h
  · exact settled_appendNoLock h hn j.logSize entry

theorem settled_removeEntries {j : RaftJournal} (h : Settled j) (hone : OneUncommitted j)
    (first : Int) : Settled ((removeEntries first).on j).2 := by
  have hg := (good_removeEntries h.good first .reopen).1
  have h0 : 0 ≤ j.commitIndex := le_trans h.good.start_nonneg h.good.start_le_commit
  have hs : ∀ i, j.commitIndex ≤ i → i < j.logSize → (j.db.entries i).isSome := fun i h1 h2 =>
    (h.good.stored i).mpr ⟨le_trans h.good.start_le_commit h1, h2⟩
  rcases removeEntries_cases h0 first hs with ⟨r, hr, -⟩ | ⟨hc, hl, j', entry, hb, he, hr⟩
  · rw [hr]
    exact h
  · rw [hr] at hg ⊢
    cases hb with
    | keep hlt => exact settled_withoutEntries h hg hlt
    | back hle hpe hpm hp => exact settled_back h hone hg hc hle hpe hpm hp

theorem settled_setCommitIndex {j : RaftJournal} (h : Settled j) (newIndex : Int) :
    Settled ((setCommitIndex newIndex).on j).2 := by
  obtain ⟨hg, ⟨hc, -⟩, -⟩ := good_setCommitIndex h.good newIndex .reopen
  refine settled_of_sameMembers h hg ?_
  rw [setCommitIndex_on] at hc ⊢
  split_ifs at hc ⊢ <;> exact ⟨rfl, rfl, rfl, rfl, rfl, rfl, hc⟩

theorem settled_setCurrentTerm {j : RaftJournal} (h : Settled j) (term : Int) (vote : RaftServer) :
    Settled ((setCurrentTerm term vote).on j).2 := by
  obtain ⟨hg, hc, -⟩ := good_setCurrentTerm h.good term vote .reopen
  refine settled_of_sameMembers h hg ?_
  rw [setCurrentTerm_on] at hc ⊢
  split_ifs at hc ⊢ <;> exact ⟨rfl, rfl, rfl, rfl, rfl, rfl, hc⟩

theorem settled_reopen {j : RaftJournal} (h : Settled j) : Settled (j.after .reopen) := by
  unfold after
  cases hj : initializeJournal j.db with
  | error e => exact h
  | ok j' =>
    refine settled_of_sameMembers h (good_reopen h.good hj) ?_
    rw [(reopen_ok h.good hj).1]
    exact ⟨rfl, rfl, rfl, rfl, rfl, rfl, le_refl _⟩

theorem settled_after {j : RaftJournal} (h : Settled j) (hn : HostsNamed j)
    (hone : OneUncommitted j) (call : JournalCall) (hk : KeepsStart call) :
    Settled (j.after call) := by
  cases call with
  | append index entry => exact settled_appendNoLock h hn index entry
  | membershipUpdate term newMembers =>
    exact settled_of_append h hn (membershipUpdate_state j term newMembers)
  | addObserver term observer => exact settled_of_append h hn (updateWith_state j _ term)
  | removeMember term member => exact settled_of_append h hn (updateWith_state j _ term)
  | promoteObserver term observer => exact settled_of_append h hn (updateWith_state j _ term)
  | demoteToObserver term member => exact settled_of_append h hn (updateWith_state j _ term)
  | appendLeadershipMarker index term leader => exact settled_appendNoLock h hn index _
  | removeEntries first => exact settled_removeEntries h hone first
  | setCommitIndex newIndex => exact settled_setCommitIndex h newIndex
  | trimUntil newLogStart => exact absurd hk id
  | setCurrentTerm term vote => exact settled_setCurrentTerm h term vote
  | reopen => exact settled_reopen h

theorem clusterID_appendNoLock {j : RaftJournal} (h : Good j) (index : Int) (entry : RaftEntry) :
    ((appendNoLock index entry).on j).2.clusterID = j.clusterID := by
  rcases appendNoLock_cases h.commit_lt_size (size_nonneg h) index entry with
    ⟨r, hr, -⟩ | ⟨-, -, -, j', htk, hr⟩
  · rw [hr]
  · rw [hr]
    exact (takes_frame htk).2.2.2.2.2.2.2

/-- No call changes the cluster that the journal belongs to. -/
theorem clusterID_after {j : RaftJournal} (h : Good j) (call : JournalCall) :
    (j.after call).clusterID = j.clusterID := by
  have happend : ∀ j', (j' = j ∨ ∃ entry, j' = ((appendNoLock j.logSize entry).on j).2) →
      j'.clusterID = j.clusterID := by
    rintro j' (rfl | ⟨entry, rfl⟩)
    · rfl
    · exact clusterID_appendNoLock h j.logSize entry
  cases call with
  | append index entry => exact clusterID_appendNoLock h index entry
  | membershipUpdate term newMembers => exact happend _ (membershipUpdate_state j term newMembers)
  | addObserver term observer => exact happend _ (updateWith_state j _ term)
  | removeMember term member => exact happend _ (updateWith_state j _ term)
  | promoteObserver term observer => exact happend _ (updateWith_state j _ term)
  | demoteToObserver term member => exact happend _ (updateWith_state j _ term)
  | appendLeadershipMarker index term leader => exact clusterID_appendNoLock h index _
  | removeEntries first =>
    have hs : ∀ i, j.commitIndex ≤ i → i < j.logSize → (j.db.entries i).isSome := fun i h1 h2 =>
      (h.stored i).mpr ⟨le_trans h.start_le_commit h1, h2⟩
    show ((removeEntries first).on j).2.clusterID = j.clusterID
    rcases removeEntries_cases (le_trans h.start_nonneg h.start_le_commit) first hs with
      ⟨r, hr, -⟩ | ⟨-, -, j', entry, hb, -, hr⟩
    · rw [hr]
    · rw [hr]
      exact (rollsBack_frame hb).2.2.2.2.2.2
  | setCommitIndex newIndex =>
    show ((setCommitIndex newIndex).on j).2.clusterID = j.clusterID
    rw [setCommitIndex_on]
    split_ifs <;> rfl
  | trimUntil newLogStart =>
    show ((trimUntil newLogStart).on j).2.clusterID = j.clusterID
    rw [trimUntil_on]
    split_ifs <;> rfl
  | setCurrentTerm term vote =>
    show ((setCurrentTerm term vote).on j).2.clusterID = j.clusterID
    rw [setCurrentTerm_on]
    split_ifs <;> rfl
  | reopen =>
    unfold after
    cases hj : initializeJournal j.db with
    | error e => rfl
    | ok j' => rw [(reopen_ok h hj).1]

/-! ## A whole run -/

theorem settled_obliterate {clusterID : RaftClusterID} {nodes : List RaftServer} {startIndex : Int}
    {j : RaftJournal} (h0 : 0 ≤ startIndex) (h : obliterate clusterID nodes startIndex = .ok j) :
    Settled j := by
  have hg := good_obliterate h0 h
  unfold obliterate initializeJournal at h
  have hs : startIndex + 1 - 1 = startIndex := by omega
  simp only [hs, if_true, bind, Except.bind, pure, Except.pure] at h
  cases hp : RaftMembers.parse (RaftMembers.toBytes { nodes := nodes, observers := [] }) with
  | none => simp [RaftMembers.ofBytes, hp] at h
  | some m =>
    simp only [RaftMembers.ofBytes, hp, parseVote, if_true, Except.ok.injEq] at h
    subst h
    refine ⟨hg, ⟨⟨_, _, if_pos rfl, rfl, hp⟩, ?_, rfl, hp⟩, fun hlt => absurd hlt (lt_irrefl _)⟩
    rintro i ⟨entry, serialized, he, -⟩
    dsimp only at he
    split at he
    · exact le_of_eq ‹_›
    · cases he

theorem settled_afterAll {j : RaftJournal} (h : Settled j) (calls : List JournalCall)
    (hk : ∀ c ∈ calls, KeepsStart c)
    (hn : ∀ before, before <+: calls → HostsNamed (j.afterAll before))
    (hone : ∀ before, before <+: calls → OneUncommitted (j.afterAll before)) :
    Settled (j.afterAll calls) := by
  induction calls using List.reverseRecOn with
  | nil => exact h
  | append_singleton calls c ih =>
    have hpre : calls <+: calls ++ [c] := List.prefix_append _ _
    rw [afterAll_snoc]
    refine settled_after (ih ?_ ?_ ?_) (hn _ hpre) (hone _ hpre) c (hk c (by simp))
    · exact fun c' hc' => hk c' (by simp [hc'])
    · exact fun before hb => hn before (hb.trans hpre)
    · exact fun before hb => hone before (hb.trans hpre)

theorem clusterID_afterAll {j : RaftJournal} (h : Good j) (calls : List JournalCall) :
    (j.afterAll calls).clusterID = j.clusterID := by
  induction calls using List.reverseRecOn with
  | nil => rfl
  | append_singleton calls c ih =>
    rw [afterAll_snoc, clusterID_after (good_afterAll h calls), ih]

/-- A journal that never had two membership entries uncommitted, and whose servers
all have names, works with the members of its last membership entry; where a run
comes back to the entries it had, it comes back to the members it had. -/
theorem the_members_are_those_of_the_log
    {clusterID : RaftClusterID} {nodes : List RaftServer} {startIndex : Int} {new : RaftJournal}
    (h0 : 0 ≤ startIndex) (hnew : obliterate clusterID nodes startIndex = .ok new)
    (calls : List JournalCall) (hk : ∀ c ∈ calls, KeepsStart c)
    (hn : ∀ before, before <+: calls → HostsNamed (new.afterAll before))
    (hone : ∀ before, before <+: calls → OneUncommitted (new.afterAll before)) :
    InForce (new.afterAll calls) ∧
    ∀ before, before <+: calls →
      (new.afterAll before).db.entries = (new.afterAll calls).db.entries →
      (new.afterAll before).members = (new.afterAll calls).members ∧
      (new.afterAll before).membershipEpoch = (new.afterAll calls).membershipEpoch := by
  have hs := settled_obliterate h0 hnew
  have hin := (settled_afterAll hs calls hk hn hone).in_force
  refine ⟨hin, fun before hb he => ?_⟩
  have hin' := (settled_afterAll hs before (fun c hc => hk c (hb.subset hc))
    (fun b hbb => hn b (hbb.trans hb)) (fun b hbb => hone b (hbb.trans hb))).in_force
  refine hin'.unique hin ?_ he
  rw [clusterID_afterAll hs.good, clusterID_afterAll hs.good]

/-! ## Runs that are checked by evaluation -/

theorem oneUncommitted_of_size {j : RaftJournal} (hg : Good j)
    (h : j.logSize ≤ j.commitIndex + 2) : OneUncommitted j := by
  intro i k hi hk hui huk
  have h1 := (hui.stored hg.stored).2
  have h2 := (huk.stored hg.stored).2
  omega

/-- The members that the entry sets, if any, have host names. -/
def namesHosts (entry : Option RaftEntry) : Bool :=
  match entry with
  | some ⟨_, [_, serialized, _]⟩ =>
    match RaftMembers.parse serialized with
    | some m => m.nodes.all (fun s => !s.hostname.isEmpty) &&
        m.observers.all (fun s => !s.hostname.isEmpty)
    | none => true
  | _ => true

theorem hostsNamed_of_entries {j : RaftJournal} (hg : Good j)
    (h : ∀ k < j.logSize.toNat, namesHosts (j.db.entries k) = true) : HostsNamed j := by
  rintro i members hu
  have hi := hu.updatedAt.stored hg.stored
  have h0 := hg.start_nonneg
  obtain ⟨⟨term, request⟩, serialized, he, hr, hp⟩ := hu
  obtain rfl : request = [ascii "JOURNAL_UPDATE_MEMBERS", serialized, j.clusterID] := hr
  have hk := h i.toNat (by omega)
  rw [Int.toNat_of_nonneg (by omega), he] at hk
  simp only [namesHosts, hp, Bool.and_eq_true, List.all_eq_true, Bool.not_eq_true',
    List.isEmpty_eq_false_iff] at hk
  exact hk

/-- A journal that took a new observer, cut it off again and was opened again works
with the members it began with. -/
theorem a_journal_that_took_an_observer_back :
    ∃ new, obliterate (ascii "id") [⟨ascii "s1", 7776⟩] 0 = .ok new ∧
      InForce (new.afterAll
        [.setCurrentTerm 1 ⟨ascii "s1", 7776⟩, .appendLeadershipMarker 1 1 ⟨ascii "s1", 7776⟩,
          .setCommitIndex 1, .addObserver 1 ⟨ascii "s2", 7776⟩, .removeEntries 2, .reopen]) := by
  refine ⟨_, rfl, ?_⟩
  have hg := fun calls => good_afterAll (good_obliterate (le_refl 0)
    (show obliterate (ascii "id") [⟨ascii "s1", 7776⟩] 0 = .ok _ from rfl)) calls
  refine (the_members_are_those_of_the_log (le_refl 0)
    (show obliterate (ascii "id") [⟨ascii "s1", 7776⟩] 0 = .ok _ from rfl) _ ?_ ?_ ?_).1
  · intro c hc
    simp only [List.mem_cons, List.not_mem_nil, or_false] at hc
    rcases hc with rfl | rfl | rfl | rfl | rfl | rfl <;> exact True.intro
  · intro before hb
    refine hostsNamed_of_entries (hg before) ?_
    rw [← List.mem_inits] at hb
    revert before
    decide +kernel
  · intro before hb
    refine oneUncommitted_of_size (hg before) ?_
    rw [← List.mem_inits] at hb
    revert before
    decide +kernel

/-- Members with a server that has no name do not read back from their own string: a
cut goes back to fewer members than the log names. -/
theorem a_server_without_a_name_is_lost_by_a_cut :
    ∃ new calls, obliterate (ascii "id") [⟨ascii "s1", 7776⟩] 0 = .ok new ∧
      (∀ c ∈ calls, KeepsStart c) ∧
      (∀ before, before <+: calls → OneUncommitted (new.afterAll before)) ∧
      ¬ InForce (new.afterAll calls) := by
  refine ⟨_, [.setCurrentTerm 1 ⟨ascii "s1", 7776⟩,
    .append 1 ⟨1, [ascii "JOURNAL_UPDATE_MEMBERS", ascii "s1:7776|:1", ascii "id"]⟩,
    .setCommitIndex 1,
    .append 2 ⟨1, [ascii "JOURNAL_UPDATE_MEMBERS", ascii "s2:7776|", ascii "id"]⟩,
    .removeEntries 2], rfl, ?_, ?_, ?_⟩
  · intro c hc
    simp only [List.mem_cons, List.not_mem_nil, or_false] at hc
    rcases hc with rfl | rfl | rfl | rfl | rfl <;> exact True.intro
  · intro before hb
    refine oneUncommitted_of_size (good_afterAll (good_obliterate (le_refl 0)
      (show obliterate (ascii "id") [⟨ascii "s1", 7776⟩] 0 = .ok _ from rfl)) before) ?_
    rw [← List.mem_inits] at hb
    revert before
    decide +kernel
  · rintro ⟨⟨entry, serialized, he, hu, hp⟩, -, -, -⟩
    have hat := he.symm.trans (show _ = some
      ⟨1, [ascii "JOURNAL_UPDATE_MEMBERS", ascii "s1:7776|:1", ascii "id"]⟩ by decide +kernel)
    cases hat
    obtain rfl : ascii "s1:7776|:1" = serialized := by
      simp only [UpdateOf, List.cons.injEq, true_and] at hu
      exact hu.1
    exact absurd hp (by decide +kernel)

end RaftJournal

end quarkdb
