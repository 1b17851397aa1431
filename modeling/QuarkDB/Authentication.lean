-- How a connection proves that it knows the password, and what it may do before. A signature
-- answers the challenge that was handed out last, once, within a minute; nothing that needs
-- the password is served to a connection whose history does not end in such a proof.
import QuarkDB.Histories
import QuarkDB.Pipelining

namespace quarkdb

/-! ## Challenges -/

/-- What a call reads from outside: both clocks, and fresh random bytes. -/
structure Surroundings where
  /-- `steady_clock::now`, in nanoseconds. -/
  steady : Nat
  /-- `system_clock::now`, in milliseconds since the epoch. -/
  millis : Int
  /-- What `generateSecureRandomBytes(64)` returns. -/
  random : Bytes

/-- `std::chrono::minutes(1)`. -/
def oneMinute : Nat := 60 * 10 ^ 9

structure Authenticator where
  secretKey : Bytes
  challengeString : Bytes := []
  challengeDeadline : Nat := 0
  deriving DecidableEq

inductive ValidationStatus
  | kOk | kDeadlinePassed | kInvalidSignature
  deriving DecidableEq

namespace Authenticator

def new (secret : Bytes) : Except Fault Authenticator :=
  if secret ≠ [] ∧ secret.length < 32 then
    .error (.thrown "Secret key is too small! Minimum size: 32")
  else .ok { secretKey := secret }

def challenge (opponentRandomBytes : Bytes) (millis : Int) (myRandomBytes : Bytes) : Bytes :=
  opponentRandomBytes ++ ascii "---" ++ decimal millis ++ ascii "---" ++ myRandomBytes

def generateChallenge (a : Authenticator) (around : Surroundings) (opponentRandomBytes : Bytes) :
    Except Fault (Bytes × Authenticator) :=
  if opponentRandomBytes.length ≠ 64 then
    .error (.assertion "opponentRandomBytes.size() == 64")
  else if opponentRandomBytes = around.random then
    .error (.assertion "opponentRandomBytes != myRandomBytes")
  else if around.random.length ≠ 64 then .error (.assertion "myRandomBytes.size() == 64")
  else
    let challengeString := challenge opponentRandomBytes around.millis around.random
    .ok (challengeString,
      { a with challengeString, challengeDeadline := around.steady + oneMinute })

/-- `HMAC`, by SHA-256, is a parameter: it is given the key and the string to sign. -/
def validateSignature (hmac : Bytes → Bytes → Bytes) (a : Authenticator) (steady : Nat)
    (signature : Bytes) : ValidationStatus × Authenticator :=
  let deadline := a.challengeDeadline
  let a := { a with challengeDeadline := 0 }
  if deadline < steady then (.kDeadlinePassed, a)
  else if signature ≠ hmac a.secretKey a.challengeString then (.kInvalidSignature, a)
  else (.kOk, a)

theorem generateChallenge_ok {a a' : Authenticator} {around : Surroundings}
    {opponentRandomBytes challengeString : Bytes}
    (h : a.generateChallenge around opponentRandomBytes = .ok (challengeString, a')) :
    around.random.length = 64 ∧
      a' = { a with
        challengeString := challenge opponentRandomBytes around.millis around.random
        challengeDeadline := around.steady + oneMinute } := by
  unfold generateChallenge at h
  split at h
  · cases h
  split at h
  · cases h
  split at h
  · cases h
  · rename_i hrandom
    cases h
    exact ⟨not_not.mp hrandom, rfl⟩

theorem validateSignature_ok {hmac : Bytes → Bytes → Bytes} {a : Authenticator} {steady : Nat}
    {signature : Bytes} :
    (a.validateSignature hmac steady signature).1 = .kOk ↔
      steady ≤ a.challengeDeadline ∧ signature = hmac a.secretKey a.challengeString := by
  unfold validateSignature
  dsimp only
  by_cases hd : a.challengeDeadline < steady
  · simp [hd]
  · by_cases hs : signature = hmac a.secretKey a.challengeString
    · simp [hd, hs, not_lt.mp hd]
    · simp [hd, hs]

/-- Challenges with one random part are told apart by it. -/
theorem random_of_challenge {opponent opponent' mine mine' : Bytes} {millis millis' : Int}
    (hlen : mine.length = mine'.length)
    (h : challenge opponent millis mine = challenge opponent' millis' mine') : mine = mine' :=
  (List.append_inj' h hlen).2

end Authenticator

/-! ## The dispatcher of authentication -/

/-- The fields of a connection that say who it is. -/
structure Session where
  authorization : Bool := false
  authenticator : Option Authenticator := none
  deriving DecidableEq

/-- A password is long enough, if there is one: the constructor throws otherwise. -/
structure AuthenticationDispatcher where
  secret : Bytes
  large : secret = [] ∨ 32 ≤ secret.length

namespace AuthenticationDispatcher

open InternalFilter (command commandType)

def new (secr : Bytes) : Except Fault AuthenticationDispatcher :=
  if h : secr = [] ∨ 32 ≤ secr.length then .ok ⟨secr, h⟩
  else .error (.thrown "Password is too small, minimum length is 32")

variable (hmac : Bytes → Bytes → Bytes)

def dispatch (d : AuthenticationDispatcher) (around : Surroundings) (req : RedisRequest)
    (s : Session) : Except Fault (Bytes × Session) :=
  let s := { s with authorization := decide (d.secret = []) }
  if command req = .AUTH then
    match req with
    | [_, attempt] =>
      if d.secret = [] then
        .ok (Formatter.err (ascii "Client sent AUTH, but no password is set"), s)
      else if d.secret ≠ attempt then .ok (Formatter.err (ascii "invalid password"), s)
      else .ok (Formatter.ok, { s with authorization := true })
    | _ => .ok (Formatter.errArgs (req.headD []), s)
  else if command req = .HMAC_AUTH_GENERATE_CHALLENGE then
    match req with
    | [_, opponentRandomBytes] =>
      if d.secret = [] then .ok (Formatter.err (ascii "no password is set"), s)
      else if opponentRandomBytes.length ≠ 64 then
        .ok (Formatter.err (ascii "exactly 64 random bytes must be provided"), s)
      else do
        let a ← Authenticator.new d.secret
        let (challengeString, a) ← a.generateChallenge around opponentRandomBytes
        return (Formatter.string challengeString, { s with authenticator := some a })
    | _ => .ok (Formatter.errArgs (req.headD []), s)
  else if command req = .HMAC_AUTH_VALIDATE_CHALLENGE then
    match req with
    | [_, signature] =>
      if d.secret = [] then .ok (Formatter.err (ascii "no password is set"), s)
      else
        match s.authenticator with
        | none => .ok (Formatter.err (ascii "no challenge is in progress"), s)
        | some a =>
          let s := { s with authenticator := none }
          match (a.validateSignature hmac around.steady signature).1 with
          | .kInvalidSignature => .ok (Formatter.err (ascii "invalid signature"), s)
          | .kDeadlinePassed => .ok (Formatter.err (ascii "deadline passed"), s)
          | .kOk => .ok (Formatter.ok, { s with authorization := true })
    | _ => .ok (Formatter.errArgs (req.headD []), s)
  else .error (.thrown "internal dispatching error for command")

end AuthenticationDispatcher

/-! ## The node -/

def Formatter.noauth (str : Bytes) : Bytes := ascii "-NOAUTH " ++ str ++ Formatter.crlf

structure QuarkDBNode where
  authDispatcher : AuthenticationDispatcher
  requirePasswordForLocalhost : Bool

/-- What reaches a node, from one connection: a request or a transaction, and what is around
when it does. -/
inductive Arrival
  | request (req : RedisRequest)
  | transaction (tx : Transaction)

structure Visit where
  around : Surroundings
  arrival : Arrival

/-- The node replies by itself, or goes on to serve what arrived. -/
inductive Verdict
  | replied (resp : Bytes)
  | served
  deriving DecidableEq

namespace QuarkDBNode

open InternalFilter (command commandType)

def password (node : QuarkDBNode) : Bytes := node.authDispatcher.secret

/-- No password is set, or the link is from localhost and needs none. -/
def Open (node : QuarkDBNode) (localhost : Bool) : Prop :=
  node.password = [] ∨ (localhost = true ∧ node.requirePasswordForLocalhost = false)

instance (node : QuarkDBNode) (localhost : Bool) : Decidable (node.Open localhost) :=
  inferInstanceAs (Decidable (_ ∨ _))

def isAuthenticated (node : QuarkDBNode) (localhost : Bool) (s : Session) : Bool × Session :=
  let s := if node.Open localhost then { s with authorization := true } else s
  (s.authorization, s)

/-- What needs the password: it is served when the connection is authenticated. -/
def grantAccess (node : QuarkDBNode) (localhost : Bool) (s : Session) : Verdict × Session :=
  let (authenticated, s) := node.isAuthenticated localhost s
  if authenticated then (.served, s)
  else (.replied (Formatter.noauth (ascii "Authentication required.")), s)

variable (hmac : Bytes → Bytes → Bytes)

def dispatch (node : QuarkDBNode) (localhost : Bool) (visit : Visit) (s : Session) :
    Except Fault (Verdict × Session) :=
  match visit.arrival with
  | .transaction _ => .ok (node.grantAccess localhost s)
  | .request req =>
    if commandType req = .AUTHENTICATION then
      (node.authDispatcher.dispatch hmac visit.around req s).map fun r => (.replied r.1, r.2)
    else .ok (node.grantAccess localhost s)

/-- All visits of a connection, in order. -/
def run (node : QuarkDBNode) (localhost : Bool) (s : Session) :
    List Visit → Except Fault (List Verdict × Session)
  | [] => .ok ([], s)
  | visit :: rest => do
    let (verdict, s) ← node.dispatch hmac localhost visit s
    let (verdicts, s) ← run node localhost s rest
    return (verdict :: verdicts, s)

end QuarkDBNode

/-! ## What proves a connection -/

namespace Visit

open InternalFilter (command commandType)

/-- The visit is a command with one argument. -/
def Gives (v : Visit) (cmd : RedisCommand) (argument : Bytes) : Prop :=
  ∃ name, v.arrival = .request [name, argument] ∧ command [name, argument] = cmd

/-- A challenge was asked for, in order. -/
def Asks (v : Visit) (opponent : Bytes) : Prop :=
  v.Gives .HMAC_AUTH_GENERATE_CHALLENGE opponent ∧ opponent.length = 64

/-- The visit belongs to authentication: it starts from nothing proved. -/
def Authenticating (v : Visit) : Prop :=
  ∃ req, v.arrival = .request req ∧ commandType req = .AUTHENTICATION

/-- A new challenge is handed out, or the one before is used up. -/
def Settles (v : Visit) : Prop :=
  (∃ opponent, v.Asks opponent) ∨ ∃ signature, v.Gives .HMAC_AUTH_VALIDATE_CHALLENGE signature

/-- The challenge that was handed out to a visit that asks. -/
def challenge (asked : Visit) (opponent : Bytes) : Bytes :=
  Authenticator.challenge opponent asked.around.millis asked.around.random

end Visit

open Histories (Since)

/-- Of the past, `asked` got the challenge that is still to be answered. -/
def OpenChallenge (asked : Visit) (opponent : Bytes) : List Visit → Prop :=
  Since (fun _ v => v = asked ∧ v.Asks opponent) fun v => ¬ v.Settles

/-- The visit gives the password, or signs the pending challenge in time. -/
def Proves (hmac : Bytes → Bytes → Bytes) (password : Bytes) (past : List Visit) (v : Visit) :
    Prop :=
  v.Gives .AUTH password ∨
  ∃ asked opponent, OpenChallenge asked opponent past ∧
    v.Gives .HMAC_AUTH_VALIDATE_CHALLENGE (hmac password (asked.challenge opponent)) ∧
    v.around.steady ≤ asked.around.steady + oneMinute

/-- The last visit that authenticates proved the password. -/
def Proved (hmac : Bytes → Bytes → Bytes) (password : Bytes) : List Visit → Prop :=
  Since (Proves hmac password) fun v => ¬ v.Authenticating

/-! ## One visit -/

namespace Visit

open InternalFilter (command commandType)

variable {v : Visit} {cmd cmd' : RedisCommand} {argument argument' : Bytes}

theorem Gives.unique (h : v.Gives cmd argument) (h' : v.Gives cmd' argument') :
    cmd = cmd' ∧ argument = argument' := by
  obtain ⟨name, ha, hc⟩ := h
  obtain ⟨name', ha', hc'⟩ := h'
  rw [ha] at ha'
  cases ha'
  exact ⟨hc.symm.trans hc', rfl⟩

theorem commandType_of_authentication {req : RedisRequest}
    (h : command req = .AUTH ∨ command req = .HMAC_AUTH_GENERATE_CHALLENGE ∨
      command req = .HMAC_AUTH_VALIDATE_CHALLENGE) : commandType req = .AUTHENTICATION := by
  have htable : ∀ cmd : RedisCommand, cmd ≠ .INVALID → getCommand req = cmd →
      (∀ row ∈ redisCmdMap, row.2.1 = cmd → row.2.2 = .AUTHENTICATION) →
      getCommandType req = .AUTHENTICATION := fun cmd hi he hall =>
    RedisDispatcher.getCommandType_of_table he hi hall
  unfold command at h
  unfold commandType
  split at h
  · simp at h
  · simp at h
  · simp at h
  · rcases h with h | h | h
    · exact htable _ (by decide) h (by decide +kernel)
    · exact htable _ (by decide) h (by decide +kernel)
    · exact htable _ (by decide) h (by decide +kernel)

theorem Gives.authenticating (h : v.Gives cmd argument)
    (hc : cmd = .AUTH ∨ cmd = .HMAC_AUTH_GENERATE_CHALLENGE ∨
      cmd = .HMAC_AUTH_VALIDATE_CHALLENGE) : v.Authenticating := by
  obtain ⟨name, ha, he⟩ := h
  exact ⟨_, ha, commandType_of_authentication (by rw [he]; exact hc)⟩

theorem Settles.authenticating (h : v.Settles) : v.Authenticating := by
  rcases h with ⟨opponent, h, -⟩ | ⟨signature, h⟩
  · exact h.authenticating (.inr (.inl rfl))
  · exact h.authenticating (.inr (.inr rfl))

end Visit

theorem Proves.authenticating {hmac : Bytes → Bytes → Bytes} {password : Bytes}
    {past : List Visit} {v : Visit} (h : Proves hmac password past v) : v.Authenticating := by
  rcases h with h | ⟨_, _, -, h, -⟩
  · exact h.authenticating (.inl rfl)
  · exact h.authenticating (.inr (.inr rfl))

namespace AuthenticationDispatcher

open InternalFilter (command commandType)

variable {hmac : Bytes → Bytes → Bytes} {secret : Bytes} {around : Surroundings}
  {req : RedisRequest} {s s' : Session}

/-- What one request can do to a session, where there is a password. -/
inductive Turn (hmac : Bytes → Bytes → Bytes) (secret : Bytes) (around : Surroundings)
    (req : RedisRequest) (s : Session) : Session → Prop
  | password (name : Bytes) (hreq : req = [name, secret]) (hc : command req = .AUTH) :
      Turn hmac secret around req s { s with authorization := true }
  | challenge (name opponent : Bytes) (hreq : req = [name, opponent])
      (hc : command req = .HMAC_AUTH_GENERATE_CHALLENGE) (hlen : opponent.length = 64)
      (hrandom : around.random.length = 64) :
      Turn hmac secret around req s
        { authorization := false
          authenticator := some
            { secretKey := secret
              challengeString := Authenticator.challenge opponent around.millis around.random
              challengeDeadline := around.steady + oneMinute } }
  | signature (name : Bytes) (a : Authenticator) (ha : s.authenticator = some a)
      (hreq : req = [name, hmac a.secretKey a.challengeString])
      (hc : command req = .HMAC_AUTH_VALIDATE_CHALLENGE)
      (hd : around.steady ≤ a.challengeDeadline) :
      Turn hmac secret around req s { authorization := true, authenticator := none }
  | refused (name attempt : Bytes) (hreq : req = [name, attempt])
      (hc : command req = .HMAC_AUTH_VALIDATE_CHALLENGE)
      (hbad : ∀ a, s.authenticator = some a → around.steady ≤ a.challengeDeadline →
        attempt ≠ hmac a.secretKey a.challengeString) :
      Turn hmac secret around req s { authorization := false, authenticator := none }
  | other (hpassword : ∀ name, req = [name, secret] → command req ≠ .AUTH)
      (hask : ∀ name opponent, req = [name, opponent] → opponent.length = 64 →
        command req ≠ .HMAC_AUTH_GENERATE_CHALLENGE)
      (hsign : ∀ name attempt, req = [name, attempt] →
        command req ≠ .HMAC_AUTH_VALIDATE_CHALLENGE) :
      Turn hmac secret around req s { s with authorization := false }

theorem dispatch_turn {d : AuthenticationDispatcher} {resp : Bytes} (hs : d.secret ≠ [])
    (h : d.dispatch hmac around req s = .ok (resp, s')) : Turn hmac d.secret around req s s' := by
  unfold dispatch at h
  have hlarge : 32 ≤ d.secret.length := d.large.resolve_left hs
  simp only [hs, decide_false, if_false] at h
  by_cases hauth : command req = .AUTH
  · simp only [hauth, if_true] at h
    have hother : ∀ cmd : RedisCommand, cmd ≠ .AUTH → command req ≠ cmd := by
      intro cmd hne he
      exact hne (he.symm.trans hauth)
    split at h
    · rename_i name attempt
      split at h
      · rename_i hne
        cases h
        exact .other (by rintro _ ⟨⟩; exact absurd rfl hne) (fun _ _ _ _ => hother _ (by decide))
          (fun _ _ _ => hother _ (by decide))
      · rename_i heq
        cases h
        exact .password name (by rw [not_not.mp heq]) hauth
    · rename_i hno
      cases h
      exact .other (fun name he => absurd he (hno name _)) (fun _ _ _ _ => hother _ (by decide))
        (fun _ _ _ => hother _ (by decide))
  simp only [hauth, if_false] at h
  by_cases hgen : command req = .HMAC_AUTH_GENERATE_CHALLENGE
  · simp only [hgen, if_true] at h
    have hother : command req ≠ .HMAC_AUTH_VALIDATE_CHALLENGE := by
      rw [hgen]
      decide
    split at h
    · rename_i name opponent
      split at h
      · rename_i hlen
        cases h
        exact .other (fun _ _ => hauth) (by rintro _ _ ⟨⟩ he; exact absurd he hlen)
          (fun _ _ _ => hother)
      · rename_i hlen
        rw [not_not] at hlen
        have hnew : Authenticator.new d.secret = .ok { secretKey := d.secret } :=
          if_neg (by omega)
        rw [hnew, bind_of_ok rfl] at h
        rcases hg : Authenticator.generateChallenge { secretKey := d.secret } around opponent with
          fault | ⟨challengeString, a⟩
        · rw [hg] at h
          cases h
        · rw [hg] at h
          obtain ⟨hrandom, rfl⟩ := Authenticator.generateChallenge_ok hg
          cases h
          exact .challenge name opponent rfl hgen hlen hrandom
    · rename_i hno
      cases h
      exact .other (fun _ _ => hauth) (fun name opponent he => absurd he (hno name opponent))
        (fun _ _ _ => hother)
  simp only [hgen, if_false] at h
  by_cases hval : command req = .HMAC_AUTH_VALIDATE_CHALLENGE
  · simp only [hval, if_true] at h
    split at h
    · rename_i name attempt
      cases ha : s.authenticator with
      | none =>
        simp only [ha] at h
        cases h
        exact .refused name attempt rfl hval (by simp [ha])
      | some a =>
        simp only [ha] at h
        have hiff : (a.validateSignature hmac around.steady attempt).1 = .kOk ↔ _ :=
          Authenticator.validateSignature_ok
        have hbad : (a.validateSignature hmac around.steady attempt).1 ≠ .kOk →
            ∀ a', s.authenticator = some a' → around.steady ≤ a'.challengeDeadline →
              attempt ≠ hmac a'.secretKey a'.challengeString := by
          intro hne a' ha' hd hs
          rw [ha] at ha'
          cases ha'
          exact hne (hiff.mpr ⟨hd, hs⟩)
        split at h
        · rename_i hstatus
          cases h
          exact .refused name attempt rfl hval (hbad (by simp [hstatus]))
        · rename_i hstatus
          cases h
          exact .refused name attempt rfl hval (hbad (by simp [hstatus]))
        · rename_i hstatus
          obtain ⟨hd, hs⟩ := hiff.mp hstatus
          cases h
          exact .signature name a ha (by rw [hs]) hval hd
    · rename_i hno
      cases h
      exact .other (fun _ _ => hauth) (fun _ _ _ _ => hgen)
        (fun name attempt he => absurd he (hno name attempt))
  simp only [hval, if_false] at h
  cases h

end AuthenticationDispatcher

/-! ## The history and the session -/

section

variable {hmac : Bytes → Bytes → Bytes} {password : Bytes} {past : List Visit} {v asked : Visit}
  {opponent : Bytes} {s s' : Session}

/-- What a session knows is what the history of the connection says. -/
structure Tracks (hmac : Bytes → Bytes → Bytes) (password : Bytes) (past : List Visit)
    (s : Session) : Prop where
  authorization : s.authorization = true ↔ Proved hmac password past
  authenticator : ∀ a, s.authenticator = some a ↔
    ∃ asked opponent, OpenChallenge asked opponent past ∧
      a = ⟨password, asked.challenge opponent, asked.around.steady + oneMinute⟩
  random : ∀ asked opponent, OpenChallenge asked opponent past → asked.around.random.length = 64

theorem tracks_nil : Tracks hmac password [] {} where
  authorization := by simp [Proved]
  authenticator := by simp [OpenChallenge]
  random := by simp [OpenChallenge]

theorem openChallenge_snoc : OpenChallenge asked opponent (past ++ [v]) ↔
    v = asked ∧ v.Asks opponent ∨ OpenChallenge asked opponent past ∧ ¬ v.Settles :=
  Histories.since_snoc

theorem openChallenge_kept (hv : ¬ v.Settles) :
    OpenChallenge asked opponent (past ++ [v]) ↔ OpenChallenge asked opponent past := by
  rw [openChallenge_snoc]
  constructor
  · rintro (⟨-, ha⟩ | ⟨hp, -⟩)
    · exact absurd (.inl ⟨opponent, ha⟩) hv
    · exact hp
  · intro hp
    exact .inr ⟨hp, hv⟩

/-- A new challenge takes the place of the one before. -/
theorem openChallenge_asked {opponent' : Bytes} (hv : v.Asks opponent) :
    OpenChallenge asked opponent' (past ++ [v]) ↔ v = asked ∧ opponent = opponent' := by
  rw [openChallenge_snoc]
  constructor
  · rintro (⟨he, ha⟩ | ⟨-, hn⟩)
    · exact ⟨he, (hv.1.unique ha.1).2⟩
    · exact absurd (.inl ⟨opponent, hv⟩) hn
  · rintro ⟨he, rfl⟩
    exact .inl ⟨he, hv⟩

/-- A challenge is used up by whatever answers it. -/
theorem not_openChallenge {signature : Bytes} (hv : v.Gives .HMAC_AUTH_VALIDATE_CHALLENGE signature) :
    ¬ OpenChallenge asked opponent (past ++ [v]) := by
  rw [openChallenge_snoc]
  rintro (⟨-, ha⟩ | ⟨-, hn⟩)
  · exact absurd (hv.unique ha.1).1 (by decide)
  · exact hn (.inr ⟨signature, hv⟩)

theorem proved_snoc : Proved hmac password (past ++ [v]) ↔
    Proves hmac password past v ∨ Proved hmac password past ∧ ¬ v.Authenticating :=
  Histories.since_snoc

/-- A visit that does not authenticate changes nothing. -/
theorem Tracks.visit (h : Tracks hmac password past s) (hv : ¬ v.Authenticating) :
    Tracks hmac password (past ++ [v]) s := by
  have hpending : ∀ asked opponent,
      OpenChallenge asked opponent (past ++ [v]) ↔ OpenChallenge asked opponent past :=
    fun _ _ => openChallenge_kept fun hs => hv hs.authenticating
  refine ⟨?_, ?_, ?_⟩
  · rw [proved_snoc, h.authorization]
    constructor
    · intro hp
      exact .inr ⟨hp, hv⟩
    · rintro (hp | ⟨hp, -⟩)
      · exact absurd hp.authenticating hv
      · exact hp
  · simpa only [hpending] using h.authenticator
  · simpa only [hpending] using h.random

/-- A visit that authenticates proves the password, or leaves nothing proved. -/
theorem proved_of_authenticating (hv : v.Authenticating) :
    Proved hmac password (past ++ [v]) ↔ Proves hmac password past v := by
  rw [proved_snoc]
  exact ⟨fun h => h.resolve_right fun h => h.2 hv, .inl⟩

/-- What a request does to the session, its visit does to the history. -/
theorem Tracks.turn {req : RedisRequest} (h : Tracks hmac password past s)
    (ha : v.arrival = .request req)
    (hauth : InternalFilter.commandType req = .AUTHENTICATION)
    (ht : AuthenticationDispatcher.Turn hmac password v.around req s s') :
    Tracks hmac password (past ++ [v]) s' := by
  have hv : v.Authenticating := ⟨req, ha, hauth⟩
  have hgives : ∀ {cmd argument}, v.Gives cmd argument →
      ∃ name, req = [name, argument] ∧ InternalFilter.command req = cmd := by
    rintro cmd argument ⟨name, ha', hc⟩
    rw [ha] at ha'
    cases ha'
    exact ⟨name, rfl, hc⟩
  have hmade : ∀ {name argument cmd}, req = [name, argument] →
      InternalFilter.command req = cmd → v.Gives cmd argument := by
    rintro name argument cmd rfl hc
    exact ⟨name, ha, hc⟩
  cases ht with
  | password name hreq hc =>
    have hproof := hmade hreq hc
    have hsettles : ¬ v.Settles := by
      rintro (⟨_, hask, -⟩ | ⟨_, hsign⟩)
      · exact absurd (hproof.unique hask).1 (by decide)
      · exact absurd (hproof.unique hsign).1 (by decide)
    refine ⟨?_, ?_, ?_⟩
    · simp [proved_of_authenticating hv, Proves, hproof]
    · simpa only [openChallenge_kept hsettles] using h.authenticator
    · simpa only [openChallenge_kept hsettles] using h.random
  | challenge name opponent hreq hc hlen hrandom =>
    have hask : v.Asks opponent := ⟨hmade hreq hc, hlen⟩
    have hnot : ¬ Proves hmac password past v := by
      rintro (hp | ⟨_, _, -, hp, -⟩)
      · exact absurd (hask.1.unique hp).1 (by decide)
      · exact absurd (hask.1.unique hp).1 (by decide)
    refine ⟨?_, ?_, ?_⟩
    · simp [proved_of_authenticating hv, hnot]
    · intro a
      simp only [openChallenge_asked hask, Option.some.injEq]
      constructor
      · rintro rfl
        exact ⟨v, opponent, ⟨rfl, rfl⟩, rfl⟩
      · rintro ⟨_, _, ⟨rfl, rfl⟩, rfl⟩
        rfl
    · intro asked opponent' hp
      rw [← ((openChallenge_asked hask).mp hp).1]
      exact hrandom
  | signature name a hsome hreq hc hd =>
    obtain ⟨asked, opponent, hp, rfl⟩ := (h.authenticator a).mp hsome
    have hsign := hmade hreq hc
    refine ⟨?_, ?_, ?_⟩
    · simp only [proved_of_authenticating hv, true_iff]
      exact .inr ⟨asked, opponent, hp, hsign, hd⟩
    · simp [not_openChallenge hsign]
    · exact fun _ _ hp => absurd hp (not_openChallenge hsign)
  | refused name attempt hreq hc hbad =>
    have hsign := hmade hreq hc
    have hnot : ¬ Proves hmac password past v := by
      rintro (hp | ⟨asked, opponent, hp, hs, hd⟩)
      · exact absurd (hsign.unique hp).1 (by decide)
      · exact hbad _ ((h.authenticator _).mpr ⟨asked, opponent, hp, rfl⟩) hd
          (hsign.unique hs).2
    refine ⟨?_, ?_, ?_⟩
    · simp [proved_of_authenticating hv, hnot]
    · simp [not_openChallenge hsign]
    · exact fun _ _ hp => absurd hp (not_openChallenge hsign)
  | other hpassword hask hsign =>
    have hsettles : ¬ v.Settles := by
      rintro (⟨opponent, hg, hlen⟩ | ⟨attempt, hg⟩)
      · obtain ⟨name, hreq, hc⟩ := hgives hg
        exact hask name opponent hreq hlen hc
      · obtain ⟨name, hreq, hc⟩ := hgives hg
        exact hsign name attempt hreq hc
    have hnot : ¬ Proves hmac password past v := by
      rintro (hp | ⟨_, _, -, hp, -⟩)
      · obtain ⟨name, hreq, hc⟩ := hgives hp
        exact hpassword name hreq hc
      · exact hsettles (.inr ⟨_, hp⟩)
    refine ⟨?_, ?_, ?_⟩
    · simp [proved_of_authenticating hv, hnot]
    · simpa only [openChallenge_kept hsettles] using h.authenticator
    · simpa only [openChallenge_kept hsettles] using h.random

end

/-! ## The whole connection -/

namespace QuarkDBNode

variable {hmac : Bytes → Bytes → Bytes} {node : QuarkDBNode} {localhost : Bool}
  {past : List Visit} {v : Visit} {s s' : Session} {verdict : Verdict}

/-- Nothing but a request of authentication is authenticated by the dispatcher. -/
theorem dispatch_cases (h : node.dispatch hmac localhost v s = .ok (verdict, s')) :
    (∃ req resp, v.arrival = .request req ∧
      InternalFilter.commandType req = .AUTHENTICATION ∧ verdict = .replied resp ∧
      node.authDispatcher.dispatch hmac v.around req s = .ok (resp, s')) ∨
    ¬ v.Authenticating ∧ node.grantAccess localhost s = (verdict, s') := by
  unfold dispatch at h
  split at h
  · rename_i tx ha
    refine .inr ⟨?_, Except.ok.inj h⟩
    rintro ⟨req, hr, -⟩
    rw [ha] at hr
    cases hr
  · rename_i req ha
    split at h
    · rename_i hauth
      rcases hd : node.authDispatcher.dispatch hmac v.around req s with fault | ⟨resp, s₁⟩
      · rw [hd] at h
        cases h
      · rw [hd] at h
        cases h
        exact .inl ⟨req, resp, ha, hauth, rfl, hd⟩
    · rename_i hauth
      refine .inr ⟨?_, Except.ok.inj h⟩
      rintro ⟨req', hr, hauth'⟩
      rw [ha] at hr
      cases hr
      exact hauth hauth'

/-- A closed node serves what its history allows, and keeps track of it. -/
theorem dispatch_spec (hclosed : ¬ node.Open localhost) (ht : Tracks hmac node.password past s)
    (h : node.dispatch hmac localhost v s = .ok (verdict, s')) :
    Tracks hmac node.password (past ++ [v]) s' ∧
      (verdict = .served ↔ ¬ v.Authenticating ∧ Proved hmac node.password past) := by
  have hpassword : node.authDispatcher.secret ≠ [] := fun he => hclosed (.inl he)
  rcases dispatch_cases h with ⟨req, resp, ha, hauth, rfl, hd⟩ | ⟨hv, haccess⟩
  · refine ⟨ht.turn ha hauth (AuthenticationDispatcher.dispatch_turn hpassword hd), ?_⟩
    have hv : v.Authenticating := ⟨req, ha, hauth⟩
    simp [hv]
  · unfold grantAccess isAuthenticated at haccess
    simp only [if_neg hclosed] at haccess
    by_cases hs : s.authorization = true
    · rw [if_pos hs] at haccess
      cases haccess
      exact ⟨ht.visit hv, by simp [hv, ht.authorization.mp hs]⟩
    · rw [if_neg hs] at haccess
      cases haccess
      exact ⟨ht.visit hv, by simp [hv, ← ht.authorization, hs]⟩

/-- An open node serves whatever does not authenticate. -/
theorem dispatch_open (hopen : node.Open localhost)
    (h : node.dispatch hmac localhost v s = .ok (verdict, s')) :
    verdict = .served ↔ ¬ v.Authenticating := by
  rcases dispatch_cases h with ⟨req, resp, ha, hauth, rfl, -⟩ | ⟨hv, haccess⟩
  · have hv : v.Authenticating := ⟨req, ha, hauth⟩
    simp [hv]
  · simp only [grantAccess, isAuthenticated, if_pos hopen, if_true] at haccess
    cases haccess
    simp [hv]

theorem run_cons {rest : List Visit} {verdicts : List Verdict}
    (h : node.run hmac localhost s (v :: rest) = .ok (verdicts, s')) :
    ∃ verdict s₁ verdicts', node.dispatch hmac localhost v s = .ok (verdict, s₁) ∧
      node.run hmac localhost s₁ rest = .ok (verdicts', s') ∧ verdicts = verdict :: verdicts' := by
  obtain ⟨⟨verdict, s₁⟩, hd, h⟩ := ok_of_bind h
  obtain ⟨⟨verdicts', s₂⟩, hr, h⟩ := ok_of_bind h
  cases h
  exact ⟨verdict, s₁, verdicts', hd, hr, rfl⟩

/-- A run from a session that tracks a history serves what the longer history allows. -/
theorem run_spec (hclosed : ¬ node.Open localhost) (ht : Tracks hmac node.password past s)
    {earlier rest : List Visit} {verdicts : List Verdict}
    (h : node.run hmac localhost s (earlier ++ v :: rest) = .ok (verdicts, s')) :
    verdicts[earlier.length]? = some .served ↔
      ¬ v.Authenticating ∧ Proved hmac node.password (past ++ earlier) := by
  induction earlier generalizing past s verdicts with
  | nil =>
    obtain ⟨verdict, s₁, verdicts', hd, -, rfl⟩ := run_cons h
    simpa using (dispatch_spec hclosed ht hd).2
  | cons w earlier ih =>
    obtain ⟨verdict, s₁, verdicts', hd, hr, rfl⟩ := run_cons h
    have hw := ih (dispatch_spec hclosed ht hd).1 hr
    simpa using hw

theorem run_open (hopen : node.Open localhost) {earlier rest : List Visit}
    {verdicts : List Verdict}
    (h : node.run hmac localhost s (earlier ++ v :: rest) = .ok (verdicts, s')) :
    verdicts[earlier.length]? = some .served ↔ ¬ v.Authenticating := by
  induction earlier generalizing s verdicts with
  | nil =>
    obtain ⟨verdict, s₁, verdicts', hd, -, rfl⟩ := run_cons h
    simpa using dispatch_open hopen hd
  | cons w earlier ih =>
    obtain ⟨verdict, s₁, verdicts', hd, hr, rfl⟩ := run_cons h
    simpa using ih hr

/-- Over all that a connection sends, what needs the password is served exactly when none is
needed, or when the last visit that authenticates gave it, or signed with it the last challenge
handed out: one not answered before, and within its minute. -/
theorem served_after_a_proof (hmac : Bytes → Bytes → Bytes) (node : QuarkDBNode)
    (localhost : Bool) (past : List Visit) (v : Visit) (rest : List Visit)
    (verdicts : List Verdict) (s : Session)
    (h : node.run hmac localhost {} (past ++ v :: rest) = .ok (verdicts, s)) :
    verdicts[past.length]? = some .served ↔
      ¬ v.Authenticating ∧ (node.Open localhost ∨ Proved hmac node.password past) := by
  by_cases hopen : node.Open localhost
  · simp [run_open hopen h, hopen]
  · have hrun := run_spec hopen tracks_nil h
    simpa [hopen] using hrun

/-- A GET, the password, and the GET again. -/
theorem a_get_after_the_password :
    let password := List.replicate 32 7
    let node : QuarkDBNode := ⟨⟨password, .inr (by simp [password])⟩, true⟩
    let around : Surroundings := ⟨0, 0, []⟩
    let get : Visit := ⟨around, .request [ascii "GET", ascii "k"]⟩
    let auth : Visit := ⟨around, .request [ascii "AUTH", password]⟩
    ∃ verdicts s, node.run (fun _ _ => []) true {} [get, auth, get] = .ok (verdicts, s) ∧
      (verdicts[2]? = some .served ↔
        ¬ get.Authenticating ∧ (node.Open true ∨ Proved (fun _ _ => []) node.password [get, auth])) ∧
      (verdicts[0]? = some .served ↔
        ¬ get.Authenticating ∧ (node.Open true ∨ Proved (fun _ _ => []) node.password [])) ∧
      verdicts[0]? ≠ some .served ∧ verdicts[2]? = some .served := by
  intro password node around get auth
  have hrun : node.run (fun _ _ => []) true {} [get, auth, get] =
      .ok ([.replied (Formatter.noauth (ascii "Authentication required.")),
        .replied Formatter.ok, .served], { authorization := true }) := by decide +kernel
  refine ⟨_, _, hrun, ?_, ?_, by simp, rfl⟩
  · exact served_after_a_proof _ node true [get, auth] get [] _ _ hrun
  · exact served_after_a_proof _ node true [] get [auth, get] _ _ hrun

/-! ## Replays -/

theorem run_tracks (hclosed : ¬ node.Open localhost) (ht : Tracks hmac node.password past s)
    {visits : List Visit} {verdicts : List Verdict}
    (h : node.run hmac localhost s visits = .ok (verdicts, s')) :
    Tracks hmac node.password (past ++ visits) s' := by
  induction visits generalizing past s verdicts with
  | nil =>
    cases h
    simpa using ht
  | cons v visits ih =>
    obtain ⟨verdict, s₁, verdicts', hd, hr, rfl⟩ := run_cons h
    have hrest := ih (dispatch_spec hclosed ht hd).1 hr
    simpa using hrest

/-- A run starts with a run of any of its first visits. -/
theorem run_of_append {first second : List Visit} {verdicts : List Verdict}
    (h : node.run hmac localhost s (first ++ second) = .ok (verdicts, s')) :
    ∃ verdicts₁ s₁, node.run hmac localhost s first = .ok (verdicts₁, s₁) := by
  induction first generalizing s verdicts with
  | nil => exact ⟨[], s, rfl⟩
  | cons v first ih =>
    obtain ⟨verdict, s₁, verdicts', hd, hr, rfl⟩ := run_cons h
    obtain ⟨verdicts₁, s₂, hr'⟩ := ih hr
    refine ⟨verdict :: verdicts₁, s₂, ?_⟩
    rw [run, bind_of_ok hd]
    dsimp only
    rw [bind_of_ok hr']
    rfl

/-- Where a signature opened the connection, it answers a pending challenge. -/
theorem openChallenge_of_signature (ht : Tracks hmac node.password (past ++ [v]) s)
    (hs : s.authorization = true) {signature : Bytes}
    (hv : v.Gives .HMAC_AUTH_VALIDATE_CHALLENGE signature) :
    ∃ asked opponent, OpenChallenge asked opponent past ∧
      signature = hmac node.password (asked.challenge opponent) := by
  have hproved := ht.authorization.mp hs
  rw [proved_of_authenticating (hv.authenticating (.inr (.inr rfl)))] at hproved
  rcases hproved with hp | ⟨asked, opponent, hp, hsign, -⟩
  · exact absurd (hv.unique hp).1 (by decide)
  · exact ⟨asked, opponent, hp, (hv.unique hsign).2⟩

/-- A signature that opens a connection a second time answers another challenge, handed out in
between: these two have one HMAC, and are one string only when the node drew the same random
bytes for both. -/
theorem a_replay_needs_a_collision (hmac : Bytes → Bytes → Bytes) (node : QuarkDBNode)
    (localhost : Bool) (past : List Visit) (v : Visit) (mid : List Visit) (w : Visit)
    (signature : Bytes) (verdicts₁ verdicts₂ : List Verdict) (s₁ s₂ : Session)
    (hclosed : ¬ node.Open localhost)
    (hv : v.Gives .HMAC_AUTH_VALIDATE_CHALLENGE signature)
    (hw : w.Gives .HMAC_AUTH_VALIDATE_CHALLENGE signature)
    (h₁ : node.run hmac localhost {} (past ++ [v]) = .ok (verdicts₁, s₁))
    (hs₁ : s₁.authorization = true)
    (h₂ : node.run hmac localhost {} (past ++ v :: mid ++ [w]) = .ok (verdicts₂, s₂))
    (hs₂ : s₂.authorization = true) :
    ∃ asked₁ ∈ past, ∃ asked₂ ∈ mid, ∃ opponent₁ opponent₂,
      asked₁.Asks opponent₁ ∧ asked₂.Asks opponent₂ ∧
      hmac node.password (asked₁.challenge opponent₁) = signature ∧
      hmac node.password (asked₂.challenge opponent₂) = signature ∧
      (asked₁.challenge opponent₁ = asked₂.challenge opponent₂ →
        asked₁.around.random = asked₂.around.random) := by
  have ht₁ : Tracks hmac node.password (past ++ [v]) s₁ := run_tracks hclosed tracks_nil h₁
  have ht₂ : Tracks hmac node.password (past ++ v :: mid ++ [w]) s₂ :=
    run_tracks hclosed tracks_nil h₂
  obtain ⟨asked₁, opponent₁, hp₁, hsign₁⟩ := openChallenge_of_signature ht₁ hs₁ hv
  obtain ⟨asked₂, opponent₂, hp₂, hsign₂⟩ := openChallenge_of_signature ht₂ hs₂ hw
  have hrandom₁ : asked₁.around.random.length = 64 := by
    obtain ⟨_, _, h⟩ := run_of_append h₁
    exact (run_tracks hclosed tracks_nil h).random asked₁ opponent₁ hp₁
  have hrandom₂ : asked₂.around.random.length = 64 := by
    obtain ⟨_, _, h⟩ := run_of_append h₂
    exact (run_tracks hclosed tracks_nil h).random asked₂ opponent₂ hp₂
  -- the first challenge was used up by `v`
  obtain ⟨mid₁, y, mid₂, hmid, ⟨hy, hask₂⟩, -⟩ :=
    hp₂.restarts (not_not.mpr (.inr ⟨signature, hv⟩)) (by
      rintro _ ⟨-, hask⟩
      exact absurd (hv.unique hask.1).1 (by decide))
  obtain ⟨before, x, later, hpast, ⟨hx, hask₁⟩, -⟩ := hp₁
  rw [hx] at hask₁
  rw [hy] at hask₂
  refine ⟨asked₁, by simp [hpast, hx], asked₂, by simp [hmid, hy], opponent₁, opponent₂, hask₁,
    hask₂, hsign₁.symm, hsign₂.symm, ?_⟩
  exact Authenticator.random_of_challenge (hrandom₁.trans hrandom₂.symm)

/-- The node draws the same random bytes twice, in one millisecond: the signature of the first
challenge opens the connection again. -/
theorem a_replay_of_the_same_random_bytes :
    let hmac : Bytes → Bytes → Bytes := fun key challenge => (challenge ++ key).drop 130
    let node : QuarkDBNode := ⟨⟨List.replicate 32 7, .inr (by simp)⟩, true⟩
    let ask : Visit := ⟨⟨0, 0, List.replicate 64 2⟩,
      .request [ascii "HMAC_AUTH_GENERATE_CHALLENGE", List.replicate 64 1]⟩
    let signature := hmac node.password (ask.challenge (List.replicate 64 1))
    ∃ asked₁ ∈ [ask], ∃ asked₂ ∈ [ask], ∃ opponent₁ opponent₂,
      asked₁.Asks opponent₁ ∧ asked₂.Asks opponent₂ ∧
      hmac node.password (asked₁.challenge opponent₁) = signature ∧
      hmac node.password (asked₂.challenge opponent₂) = signature ∧
      (asked₁.challenge opponent₁ = asked₂.challenge opponent₂ →
        asked₁.around.random = asked₂.around.random) := by
  intro hmac node ask signature
  let sign : Visit := ⟨⟨oneMinute, 0, []⟩,
    .request [ascii "HMAC_AUTH_VALIDATE_CHALLENGE", signature]⟩
  have hopens : ∀ visits ∈ [[ask, sign], [ask, sign, ask, sign]],
      (node.run hmac true {} visits).toOption.map (fun r => r.2.authorization) = some true := by
    decide +kernel
  have hrun : ∀ visits ∈ [[ask, sign], [ask, sign, ask, sign]],
      ∃ verdicts s, node.run hmac true {} visits = .ok (verdicts, s) ∧
        s.authorization = true := by
    intro visits hmem
    have h := hopens visits hmem
    rcases hr : node.run hmac true {} visits with fault | ⟨verdicts, s⟩
    · rw [hr] at h
      cases h
    · rw [hr] at h
      exact ⟨verdicts, s, rfl, Option.some.inj h⟩
  have hsign : sign.Gives .HMAC_AUTH_VALIDATE_CHALLENGE signature := ⟨_, rfl, by decide +kernel⟩
  obtain ⟨_, s₁, h₁, hs₁⟩ := hrun [ask, sign] (by simp)
  obtain ⟨_, s₂, h₂, hs₂⟩ := hrun [ask, sign, ask, sign] (by simp)
  exact a_replay_needs_a_collision hmac node true [ask] sign [ask] sign _ _ _ s₁ s₂
    (by decide) hsign hsign h₁ hs₁ h₂ hs₂

end QuarkDBNode

end quarkdb
