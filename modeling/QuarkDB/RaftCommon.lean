-- The names raft works with: servers, the members of a cluster, and the
-- entries of the journal, with the strings the first two are stored as.
import QuarkDB.Bytes

namespace quarkdb

/-! A `RaftTerm` and a `LogIndex` are 64-bit numbers that no run exhausts, and
are integers here. -/

abbrev RaftClusterID := Bytes

/-- A request is the list of its arguments. -/
abbrev RedisRequest := List Bytes

/-! ## Numbers and lists as text -/

/-- The decimal digits of a number. -/
def digitsOf (n : Nat) : Bytes := (Nat.toDigits 10 n).map fun c => c.toNat.toUInt8

/-- `std::to_string`. -/
def decimal (n : Int) : Bytes :=
  if n < 0 then 45 :: digitsOf n.natAbs else digitsOf n.natAbs

def isSpace (c : UInt8) : Bool := c = 32 || (9 ≤ c && c ≤ 13)

def isDigit (c : UInt8) : Bool := 48 ≤ c && c ≤ 57

/-- The value of a string of digits. -/
def digitsValue (digits : Bytes) : Nat := digits.foldl (fun n c => 10 * n + (c.toNat - 48)) 0

/-- `ParseUtils::parseInt64`: what `strtoll` reads must be the whole string, and
must not be one of the two bounds it saturates at. An empty string reads as 0. -/
def parseInt64 (str : Bytes) : Option Int :=
  let body := str.dropWhile isSpace
  let (negative, digits) :=
    match body with
    | 45 :: rest => (true, rest)
    | 43 :: rest => (false, rest)
    | _ => (false, body)
  if str = [] then some 0
  else if digits = [] ∨ ¬ digits.all isDigit then none
  else
    let n : Int := if negative then -digitsValue digits else digitsValue digits
    if n ≤ -2 ^ 63 ∨ 2 ^ 63 - 1 ≤ n then none else some n

/-- A number that is read is neither of the bounds. -/
theorem parseInt64_bounds {str : Bytes} {n : Int} (h : parseInt64 str = some n) :
    -2 ^ 63 < n ∧ n < 2 ^ 63 - 1 := by
  unfold parseInt64 at h
  dsimp only at h
  generalize (match str.dropWhile isSpace with
    | 45 :: rest => (true, rest)
    | 43 :: rest => (false, rest)
    | _ => (false, str.dropWhile isSpace)) = signAndDigits at h
  by_cases he : str = []
  · rw [if_pos he] at h
    cases h
    omega
  rw [if_neg he] at h
  split at h
  · cases h
  generalize (if signAndDigits.1 = true then -(digitsValue signAndDigits.2 : Int)
    else digitsValue signAndDigits.2) = m at h
  split at h
  · cases h
  · have hn := Option.some.inj h
    omega

/-- `split`, for a token of one byte. -/
def split (data : Bytes) (token : UInt8) : List Bytes := data.splitOn token

theorem isDigit_of_mem_digitsOf {n : Nat} {c : UInt8} (hc : c ∈ digitsOf n) : isDigit c = true := by
  obtain ⟨d, hd, rfl⟩ := List.mem_map.mp hc
  have hdig := Nat.isDigit_of_mem_toDigits (by decide) (by decide) hd
  simp only [Char.isDigit, Bool.and_eq_true, decide_eq_true_eq] at hdig
  have h1 : 48 ≤ d.toNat := hdig.1
  have h2 : d.toNat ≤ 57 := hdig.2
  simp only [isDigit, Bool.and_eq_true, decide_eq_true_eq, UInt8.le_iff_toNat_le]
  have h3 : d.toNat.toUInt8.toNat = d.toNat := by simp; omega
  rw [h3]
  exact ⟨h1, h2⟩

theorem digitsValue_digitsOf (n : Nat) : digitsValue (digitsOf n) = n := by
  have h : ∀ (l : List Char), (∀ c ∈ l, c.isDigit) → ∀ init,
      (l.map fun c => c.toNat.toUInt8).foldl (fun n c => 10 * n + (c.toNat - 48)) init =
        Nat.ofDigitChars 10 l init := by
    intro l
    induction l with
    | nil => intro _ init; simp
    | cons c l ih =>
      intro hl init
      have hdig := hl c (by simp)
      simp only [Char.isDigit, Bool.and_eq_true, decide_eq_true_eq] at hdig
      have h2 : c.toNat ≤ 57 := hdig.2
      have h3 : c.toNat.toUInt8.toNat = c.toNat := by simp; omega
      rw [List.map_cons, List.foldl_cons, Nat.ofDigitChars_cons, h3]
      exact ih (fun d hd => hl d (by simp [hd])) _
  have hd := h (Nat.toDigits 10 n)
    (fun c hc => Nat.isDigit_of_mem_toDigits (by decide) (by decide) hc) 0
  rw [Nat.ofDigitChars_ten_toDigits] at hd
  exact hd

theorem digitsOf_ne_nil (n : Nat) : digitsOf n ≠ [] := by
  simp [digitsOf, Nat.toDigits_ne_nil]

theorem digit_is_no_sign {c : UInt8} (h : isDigit c = true) :
    isSpace c = false ∧ c ≠ 45 ∧ c ≠ 43 := by
  simp only [isDigit, Bool.and_eq_true, decide_eq_true_eq, UInt8.le_iff_toNat_le] at h
  have h48 : (48 : UInt8).toNat = 48 := rfl
  refine ⟨?_, ?_, ?_⟩
  · simp only [isSpace, Bool.or_eq_false_iff, Bool.and_eq_false_iff, decide_eq_false_iff_not,
      UInt8.le_iff_toNat_le, ← UInt8.toNat_inj]
    have h32 : (32 : UInt8).toNat = 32 := rfl
    have h13 : (13 : UInt8).toNat = 13 := rfl
    omega
  · rintro rfl
    exact absurd h.1 (by decide)
  · rintro rfl
    exact absurd h.1 (by decide)

/-- A string of digits is the number that it is in decimal. -/
theorem parseInt64_digits {digits : Bytes} (hne : digits ≠ []) (hall : digits.all isDigit = true)
    (h : (digitsValue digits : Int) < 2 ^ 63 - 1) :
    parseInt64 digits = some (digitsValue digits : Int) := by
  have hb : ¬ ((digitsValue digits : Int) ≤ -2 ^ 63 ∨ 2 ^ 63 - 1 ≤ (digitsValue digits : Int)) := by
    omega
  obtain ⟨c, rest, rfl⟩ := List.exists_cons_of_ne_nil hne
  obtain ⟨hsp, hm, hp⟩ := digit_is_no_sign (c := c) (by simpa using (List.all_eq_true.mp hall) c)
  have hd : List.dropWhile isSpace (c :: rest) = c :: rest := by
    rw [List.dropWhile_cons_of_neg (by simp [hsp])]
  have hmatch : (match c :: rest with
      | 45 :: rest => (true, rest)
      | 43 :: rest => (false, rest)
      | _ => (false, c :: rest)) = (false, c :: rest) := by
    split
    · rename_i h; cases h; exact absurd rfl hm
    · rename_i h; cases h; exact absurd rfl hp
    · rfl
  unfold parseInt64
  simp only [hd, hmatch, hall, hb, List.cons_ne_nil, not_true_eq_false, or_self, if_false,
    Bool.false_eq_true]

/-- A number in decimal reads back as the number. -/
theorem parseInt64_decimal {n : Int} (h1 : -2 ^ 63 < n) (h2 : n < 2 ^ 63 - 1) :
    parseInt64 (decimal n) = some n := by
  have hall : (digitsOf n.natAbs).all isDigit = true := by
    rw [List.all_eq_true]
    intro c hc
    exact isDigit_of_mem_digitsOf hc
  have hb : ¬ (n ≤ -2 ^ 63 ∨ 2 ^ 63 - 1 ≤ n) := by omega
  unfold decimal parseInt64
  by_cases hn : n < 0
  · have hv : (-(digitsValue (digitsOf n.natAbs)) : Int) = n := by
      rw [digitsValue_digitsOf]
      omega
    rw [if_pos hn]
    have hd : List.dropWhile isSpace (45 :: digitsOf n.natAbs) = 45 :: digitsOf n.natAbs := by
      rw [List.dropWhile_cons_of_neg (by decide)]
    simp only [hd, digitsOf_ne_nil, hall, hv, hb, List.cons_ne_nil, not_true_eq_false, or_self,
      if_false, if_true]
  · have hv : (digitsValue (digitsOf n.natAbs) : Int) = n := by
      rw [digitsValue_digitsOf]
      omega
    rw [if_neg hn, ← parseInt64, parseInt64_digits (digitsOf_ne_nil _) hall (by omega), hv]

theorem decimal_injective {a b : Int} (h : decimal a = decimal b) : a = b := by
  have hdigits : ∀ {m n : Nat}, digitsOf m = digitsOf n → m = n := by
    intro m n he
    rw [← digitsValue_digitsOf m, he, digitsValue_digitsOf]
  have hminus : ∀ {m : Nat} {rest : Bytes}, digitsOf m ≠ 45 :: rest := by
    intro m rest he
    have hd := isDigit_of_mem_digitsOf (show (45 : UInt8) ∈ digitsOf m by rw [he]; simp)
    exact absurd hd (by decide)
  unfold decimal at h
  split at h <;> split at h
  · have he := hdigits (List.cons.inj h).2
    omega
  · exact absurd h.symm hminus
  · exact absurd h hminus
  · have he := hdigits h
    omega

theorem colon_not_mem_decimal (n : Int) : (58 : UInt8) ∉ decimal n := by
  have hd : (58 : UInt8) ∉ digitsOf n.natAbs := by
    intro h
    exact absurd (isDigit_of_mem_digitsOf h) (by decide)
  unfold decimal
  split
  · simp only [List.mem_cons, not_or]
    exact ⟨by decide, hd⟩
  · exact hd

/-! ## Servers -/

structure RaftServer where
  hostname : Bytes := []
  port : Int32 := 0
  deriving Repr, DecidableEq, Inhabited

namespace RaftServer

/-- The server of a journal that does not know its cluster yet. -/
def Null : RaftServer := { hostname := ascii "#!^NULL-HOSTNAME^!#", port := 0 }

/-- The vote that blocks a term: no node has this name. -/
def BLOCKED_VOTE : RaftServer := { hostname := ascii "VOTING_BLOCKED_FOR_THIS_TERM", port := -1 }

def toBytes (s : RaftServer) : Bytes :=
  if s.hostname = [] then [] else s.hostname ++ 58 :: decimal s.port.toInt

def empty (s : RaftServer) : Bool := s.hostname.isEmpty

end RaftServer

def parseServer (str : Bytes) : Option RaftServer :=
  match split str 58 with
  | [hostname, port] => do
    let port ← parseInt64 port
    -- The cast to a 32-bit int.
    return { hostname, port := Int32.ofInt port }
  | _ => none

def parseServers (str : Bytes) : Option (List RaftServer) := do
  let servers ← (split str 44).mapM parseServer
  if servers.Nodup then return servers else none

def serializeNodes (nodes : List RaftServer) : Bytes :=
  List.intercalate (ascii ",") (nodes.map RaftServer.toBytes)

/-- What the disk holds for a vote is read back as that vote. -/
def parseVote (vote : Bytes) : Option RaftServer :=
  if vote = [] then some {} else parseServer vote

theorem parseServer_toBytes {s v : RaftServer} (hs : s.hostname ≠ [])
    (h : parseServer s.toBytes = some v) : v = s := by
  have hport : parseInt64 (decimal s.port.toInt) = some s.port.toInt := by
    have h1 := Int32.le_toInt s.port
    have h2 := Int32.toInt_lt s.port
    exact parseInt64_decimal (by omega) (by omega)
  have hsplit : split s.toBytes 58 = s.hostname.splitOn 58 ++ [decimal s.port.toInt] := by
    rw [RaftServer.toBytes, if_neg hs, split, List.splitOn_append_cons_self,
      List.splitOn_eq_singleton (colon_not_mem_decimal _)]
  unfold parseServer at h
  rw [hsplit] at h
  by_cases hc : (58 : UInt8) ∈ s.hostname
  · -- A name with a ':' in it makes three parts or more.
    obtain ⟨a, b, hab⟩ := List.append_of_mem hc
    rw [hab, List.splitOn_append_cons_self] at h
    obtain ⟨x, xs, hx⟩ := List.exists_cons_of_ne_nil (List.splitOn_ne_nil 58 a)
    obtain ⟨y, ys, hy⟩ := List.exists_cons_of_ne_nil (List.splitOn_ne_nil 58 b)
    rw [hx, hy] at h
    cases xs <;> simp at h
  · rw [List.splitOn_eq_singleton hc] at h
    simp only [List.singleton_append, hport, Option.bind_eq_bind, Option.bind_some,
      Option.pure_def, Option.some.injEq] at h
    rw [← h, Int32.ofInt_toInt]

/-- What is read back from the string of a vote has that string, and is the vote
itself unless that names no server. -/
theorem parseVote_toBytes {s v : RaftServer} (h : parseVote s.toBytes = some v) :
    v.toBytes = s.toBytes ∧ (s.empty = false → v = s) := by
  by_cases hs : s.hostname = []
  · have hb : s.toBytes = [] := by rw [RaftServer.toBytes, if_pos hs]
    rw [hb, parseVote, if_pos rfl, Option.some.injEq] at h
    subst h
    refine ⟨hb.symm, fun he => ?_⟩
    simp [RaftServer.empty, hs] at he
  · have hb : s.toBytes ≠ [] := by simp [RaftServer.toBytes, hs]
    rw [parseVote, if_neg hb] at h
    obtain rfl := parseServer_toBytes hs h
    exact ⟨rfl, fun _ => rfl⟩

/-- A server whose string reads back as the same server, or no server at all. -/
def RaftServer.ReadsBack (s : RaftServer) : Prop := parseVote s.toBytes = some s

instance (s : RaftServer) : Decidable s.ReadsBack := inferInstanceAs (Decidable (_ = _))

theorem empty_server_reads_back : RaftServer.ReadsBack {} := rfl

/-! ## Members -/

structure RaftMembers where
  nodes : List RaftServer := []
  observers : List RaftServer := []
  deriving Repr, DecidableEq, Inhabited

namespace RaftMembers

def parse (serialized : Bytes) : Option RaftMembers :=
  match split serialized 124 with
  | [first, second] => do
    let nodes ← parseServers first
    let observers ← if second = [] then some [] else parseServers second
    return { nodes, observers }
  | _ => none

def toBytes (m : RaftMembers) : Bytes :=
  serializeNodes m.nodes ++ ascii "|" ++ serializeNodes m.observers

/-- The constructor from a string. -/
def ofBytes (serialized : Bytes) : Except Fault RaftMembers :=
  match parse serialized with
  | some m => .ok m
  | none => .error (.thrown "corruption, cannot parse members: ")

def addObserver (m : RaftMembers) (observer : RaftServer) : Except Bytes RaftMembers :=
  if observer ∈ m.observers then
    .error (observer.toBytes ++ ascii " is already an observer.")
  else if observer ∈ m.nodes then
    .error (observer.toBytes ++ ascii " is already a full node.")
  else
    .ok { m with observers := m.observers ++ [observer] }

def removeMember (m : RaftMembers) (machine : RaftServer) : Except Bytes RaftMembers :=
  if machine ∈ m.observers then .ok { m with observers := m.observers.erase machine }
  else if machine ∈ m.nodes then .ok { m with nodes := m.nodes.erase machine }
  else .error (machine.toBytes ++ ascii " is neither an observer nor a full node.")

def promoteObserver (m : RaftMembers) (observer : RaftServer) : Except Bytes RaftMembers :=
  if observer ∈ m.observers then
    .ok { nodes := m.nodes ++ [observer], observers := m.observers.erase observer }
  else
    .error (observer.toBytes ++ ascii " is not an observer.")

def demoteToObserver (m : RaftMembers) (member : RaftServer) : Except Bytes RaftMembers :=
  if member ∈ m.nodes then
    .ok { nodes := m.nodes.erase member, observers := m.observers ++ [member] }
  else
    .error (member.toBytes ++ ascii " is not a full member.")

end RaftMembers

/-- A consistent membership snapshot. -/
structure RaftMembership where
  nodes : List RaftServer
  observers : List RaftServer
  epoch : Int
  deriving Repr, DecidableEq

namespace RaftMembership

def contains (m : RaftMembership) (target : RaftServer) : Bool :=
  target ∈ m.nodes || target ∈ m.observers

end RaftMembership

/-! ## Entries -/

structure RaftEntry where
  term : Int
  request : RedisRequest
  deriving Repr, DecidableEq, Inhabited

/-- The entry that changes the members of the cluster. -/
def updateMembersEntry (term : Int) (members : RaftMembers) (clusterID : RaftClusterID) :
    RaftEntry :=
  { term, request := [ascii "JOURNAL_UPDATE_MEMBERS", members.toBytes, clusterID] }

/-- The entry a node appends when it becomes leader. -/
def leadershipMarker (term : Int) (leader : RaftServer) : RaftEntry :=
  { term, request := [ascii "JOURNAL_LEADERSHIP_MARKER", decimal term, leader.toBytes] }

end quarkdb
