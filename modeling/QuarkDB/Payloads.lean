-- A packed transaction as a client may send it: what the encoder made reads back, and of
-- all other payloads only the empty one is rejected.
import QuarkDB.Outcome
import QuarkDB.Transaction

namespace quarkdb

namespace Transaction

/-- What was fused into one request reads back: the requests, the phantom flag, and whether
there are writes. -/
theorem deserialize_toRedisRequest {tx : Transaction} (h : tx.serialize.length < 2 ^ 63)
    (hfused : tx.phantom = false ∨ tx.requests.length ≠ 1) :
    deserialize tx.toRedisRequest = .ok (some tx) := by
  have hpacked := deserialize_packed h []
  rw [List.append_nil] at hpacked
  unfold toRedisRequest
  split
  · rename_i req hp hr
    rcases hfused with hf | hf
    · rw [hp] at hf
      cases hf
    · rw [hr] at hf
      exact absurd rfl hf
  · exact hpacked

/-! ## Payloads of clients -/

/-- The payload is taken as a transaction that it is the packed form of, up to what follows, or
the answer is false. -/
def TakenOrRejected (payload kind : Bytes) : Prop :=
  deserialize [ascii "TX_READWRITE", payload, kind] = .ok none ∨
    ∃ tx, deserialize [ascii "TX_READWRITE", payload, kind] = .ok (some tx) ∧
      tx.serialize <+: payload

/-- The payload begins with a list of requests, each of them a read or a write and at least
one a write: their number, and for each the number of its parts and every part after its
length. -/
def BeginsWithRequests (payload : Bytes) : Prop :=
  ∃ reqs : List RedisRequest,
    (∀ r ∈ reqs, getCommandType r = .READ ∨ getCommandType r = .WRITE) ∧
    (∃ r ∈ reqs, getCommandType r = .WRITE) ∧
    Endian.bigInt reqs.length ++ reqs.flatMap serializeRequest <+: payload

theorem getCommand_readWrite (payload kind : Bytes) :
    getCommand [ascii "TX_READWRITE", payload, kind] = .TX_READWRITE := by
  have h : findCommand (ascii "TX_READWRITE") = some (.TX_READWRITE, .WRITE) := by
    decide +kernel
  have hparse : parseCommand [ascii "TX_READWRITE", payload, kind] = (.TX_READWRITE, .WRITE) := by
    rw [parseCommand_cons, h]
    rfl
  exact getCommand_of_parsed hparse

/-- The kinds of a transaction, as they are written. -/
theorem typeInString_of_kind {kind : Bytes} (h : kind = ascii "phantom" ∨ kind = ascii "real")
    {tx : Transaction} (hp : tx.phantom = decide (kind = ascii "phantom")) :
    tx.typeInString = kind := by
  unfold typeInString
  rw [hp]
  rcases h with rfl | rfl
  · rfl
  · rw [decide_eq_false (by decide)]
    rfl

/-- A payload that begins with requests is taken as these. -/
theorem deserialize_of_begins {payload kind : Bytes} (hl : payload.length < 2 ^ 63)
    (hkind : kind = ascii "phantom" ∨ kind = ascii "real") (h : BeginsWithRequests payload) :
    ∃ tx, deserialize [ascii "TX_READWRITE", payload, kind] = .ok (some tx) ∧
      tx.serialize <+: payload := by
  obtain ⟨reqs, hc, ⟨w, hw, hwrite⟩, hprefix⟩ := h
  let tx := ofRequests reqs (decide (kind = ascii "phantom")) hc
  have hserialize : tx.serialize <+: payload := hprefix
  obtain ⟨rest, hrest⟩ := hserialize
  have hfits : tx.serialize.length < 2 ^ 63 := by
    have := congrArg List.length hrest
    rw [List.length_append] at this
    omega
  have hwrites : tx.hasWrites = true := by
    rw [tx.hasWrites_eq, List.any_eq_true]
    exact ⟨w, hw, decide_eq_true hwrite⟩
  have hfused : tx.getFusedCommand = ascii "TX_READWRITE" := by
    unfold getFusedCommand
    rw [hwrites]
    rfl
  have hd := deserialize_packed hfits rest
  rw [hfused, hrest, typeInString_of_kind hkind rfl] at hd
  exact ⟨tx, hd, hprefix⟩

/-- A payload that is taken has writes in it. -/
theorem writes_of_deserialize {payload kind : Bytes} {tx : Transaction}
    (h : deserialize [ascii "TX_READWRITE", payload, kind] = .ok (some tx)) :
    tx.hasWrites = true := by
  have hc := getCommand_readWrite payload kind
  unfold deserialize at h
  dsimp only at h
  split at h
  · cases h
  split at h
  · cases h
  obtain ⟨o, -, h⟩ := ok_of_bind h
  rcases o with _ | tx'
  · cases h
  dsimp only at h
  rw [if_neg (by rw [hc]; simp)] at h
  obtain ⟨u, hassert, h⟩ := ok_of_bind h
  cases h
  unfold qdbAssert at hassert
  split at hassert
  · assumption
  · cases hassert

/-- When the answer is false. -/
theorem deserialize_eq_none_iff {payload kind : Bytes} :
    deserialize [ascii "TX_READWRITE", payload, kind] = .ok none ↔
      payload = [] ∨ (kind ≠ ascii "phantom" ∧ kind ≠ ascii "real") := by
  have hc := getCommand_readWrite payload kind
  constructor
  · intro h
    by_contra hn
    obtain ⟨hne, hkind⟩ := not_or.mp hn
    unfold deserialize at h
    dsimp only at h
    rw [if_neg (by rw [hc]; simp), if_neg hkind] at h
    obtain ⟨o, ho, h⟩ := ok_of_bind h
    rcases o with _ | tx
    · -- a payload that is not empty is taken, or the decoder stops
      unfold deserializePayload at ho
      rw [if_neg hne] at ho
      obtain ⟨⟨total, rest⟩, -, ho⟩ := ok_of_bind ho
      dsimp only at ho
      split at ho
      · cases ho
      · obtain ⟨tx, -, ho⟩ := ok_of_bind ho
        cases ho
    · dsimp only at h
      rw [if_neg (by rw [hc]; simp)] at h
      obtain ⟨u, -, h⟩ := ok_of_bind h
      cases h
  · intro h
    unfold deserialize
    dsimp only
    rw [if_neg (by rw [hc]; simp)]
    by_cases hkind : kind ≠ ascii "phantom" ∧ kind ≠ ascii "real"
    · rw [if_pos hkind]
    · rw [if_neg hkind]
      rcases h with rfl | h
      · rfl
      · exact absurd h hkind

/-- What was fused reads back, whatever the arguments. Of the payloads that a client sends, the
decoder takes those that begin with requests of which one writes, and rejects the empty one
and those of an unknown kind; on every other it reads past the end, resizes by a negative
count, or fails an assertion. -/
theorem a_payload_is_taken_or_rejected_iff (payload kind : Bytes) (hl : payload.length < 2 ^ 63) :
    (∀ tx : Transaction, tx.serialize.length < 2 ^ 63 →
      (tx.phantom = false ∨ tx.requests.length ≠ 1) →
      deserialize tx.toRedisRequest = .ok (some tx)) ∧
    (TakenOrRejected payload kind ↔
      payload = [] ∨ (kind ≠ ascii "phantom" ∧ kind ≠ ascii "real") ∨
        BeginsWithRequests payload) := by
  refine ⟨fun tx h hfused => deserialize_toRedisRequest h hfused, ?_⟩
  constructor
  · rintro (hnone | ⟨tx, htx, hprefix⟩)
    · rcases deserialize_eq_none_iff.mp hnone with h | h
      · exact .inl h
      · exact .inr (.inl h)
    · have hw := writes_of_deserialize htx
      rw [tx.hasWrites_eq, List.any_eq_true] at hw
      obtain ⟨w, hmem, hwrite⟩ := hw
      exact .inr (.inr ⟨tx.requests, tx.checked, ⟨w, hmem, of_decide_eq_true hwrite⟩, hprefix⟩)
  · intro h
    by_cases hkind : kind = ascii "phantom" ∨ kind = ascii "real"
    · rcases h with h | h | h
      · exact .inl (deserialize_eq_none_iff.mpr (.inl h))
      · exact .inl (deserialize_eq_none_iff.mpr (.inr h))
      · exact .inr (deserialize_of_begins hl hkind h)
    · exact .inl (deserialize_eq_none_iff.mpr (.inr (not_or.mp hkind)))

/-- A read, and a write with an empty argument. -/
def aReadAndAWrite : List RedisRequest :=
  [[ascii "GET", ascii "a"], [ascii "SET", ascii "a", []]]

/-- Packed they read back, and so they do when a client sends them with a byte that follows. -/
theorem a_read_and_a_write_read_back :
    ∃ tx : Transaction, tx.requests = aReadAndAWrite ∧
      deserialize tx.toRedisRequest = .ok (some tx) ∧
      TakenOrRejected (tx.serialize ++ [7]) (ascii "real") := by
  have hc : ∀ r ∈ aReadAndAWrite, getCommandType r = .READ ∨ getCommandType r = .WRITE := by
    decide +kernel
  have hlength : (Endian.bigInt aReadAndAWrite.length ++
      aReadAndAWrite.flatMap serializeRequest).length = 72 := by decide +kernel
  have hserialize : (ofRequests aReadAndAWrite false hc).serialize.length = 72 := hlength
  have hlong : ((ofRequests aReadAndAWrite false hc).serialize ++ [7]).length < 2 ^ 63 := by
    rw [List.length_append, hserialize]
    decide
  obtain ⟨hback, hclient⟩ := a_payload_is_taken_or_rejected_iff _ (ascii "real") hlong
  refine ⟨ofRequests aReadAndAWrite false hc, rfl, hback _ ?_ (.inl rfl), ?_⟩
  · rw [hserialize]
    decide
  · refine hclient.mpr (.inr (.inr ⟨aReadAndAWrite, hc, ?_, List.prefix_append _ _⟩))
    exact ⟨[ascii "SET", ascii "a", []], by simp [aReadAndAWrite], by decide +kernel⟩

/-- A payload of one byte: the decoder reads eight. -/
theorem a_payload_of_one_byte_is_read_past_its_end :
    deserialize [ascii "TX_READWRITE", [1], ascii "real"] = .error .outOfBounds ∧
      ¬ TakenOrRejected [1] (ascii "real") := by
  have h : deserialize [ascii "TX_READWRITE", [1], ascii "real"] = .error .outOfBounds :=
    Outcome.eq_error_of_map (f := fun _ => ()) (by decide +kernel)
  refine ⟨h, ?_⟩
  rintro (hn | ⟨tx, htx, -⟩)
  · rw [h] at hn
    cases hn
  · rw [h] at htx
    cases htx

end Transaction

end quarkdb
