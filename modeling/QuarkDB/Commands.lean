-- The commands a client or a node can send, and how the first part of a request
-- names one of them.
import QuarkDB.RaftCommon

namespace quarkdb

inductive RedisCommand
  | INVALID
  | PING | DEBUG | MONITOR | CLIENT_ID | COMMAND_STATS | ACTIVATE_PUSH_TYPES | CLIENT
  | FLUSHALL
  | AUTH | HMAC_AUTH_GENERATE_CHALLENGE | HMAC_AUTH_VALIDATE_CHALLENGE
  | GET | SET | EXISTS | DEL | KEYS | SCAN
  | HGET | HSET | HMSET | HEXISTS | HKEYS | HGETALL | HINCRBY | HINCRBYMULTI | HDEL | HLEN
  | HVALS | HSCAN | HSETNX | HINCRBYFLOAT | HCLONE
  | ARTIFICIALLY_SLOW_WRITE_NEVER_USE_THIS
  | LHMSET | LHSET | LHGET | LHLEN | LHDEL | LHLOCDEL | LHSCAN
  | LHGET_WITH_FALLBACK | LHDEL_WITH_FALLBACK | LHSET_AND_DEL_FALLBACK
  | CONVERT_HASH_FIELD_TO_LHASH
  | SADD | SISMEMBER | SREM | SMOVE | SMEMBERS | SCARD | SSCAN
  | DEQUE_PUSH_FRONT | DEQUE_POP_FRONT | DEQUE_PUSH_BACK | DEQUE_POP_BACK | DEQUE_TRIM_FRONT
  | DEQUE_LEN | DEQUE_SCAN_BACK | DEQUE_CLEAR
  | RAW_SCAN | RAW_SCAN_TOMBSTONES | RAW_GET_ALL_VERSIONS
  | TYPE
  | EXEC | DISCARD | MULTI | TX_READONLY | TX_READWRITE
  | CLOCK_GET
  | LEASE_GET | LEASE_ACQUIRE | LEASE_RELEASE | LEASE_GET_PENDING_EXPIRATION_EVENTS
  | VHSET | VHGETALL | VHDEL | VHLEN
  | TIMESTAMPED_LEASE_GET | TIMESTAMPED_LEASE_ACQUIRE | TIMESTAMPED_LEASE_RELEASE
  | CONFIG_GET | CONFIG_SET | CONFIG_GETALL
  | RAFT_HANDSHAKE | RAFT_APPEND_ENTRIES | RAFT_INFO | RAFT_LEADER_INFO | RAFT_REQUEST_VOTE
  | RAFT_REQUEST_PRE_VOTE | RAFT_FETCH | RAFT_ATTEMPT_COUP | RAFT_ADD_OBSERVER
  | RAFT_REMOVE_MEMBER | RAFT_PROMOTE_OBSERVER | RAFT_DEMOTE_TO_OBSERVER | RAFT_HEARTBEAT
  | RAFT_FETCH_LAST | RAFT_JOURNAL_SCAN | RAFT_SET_FSYNC_POLICY | RAFT_OBSERVE_TERM
  | RAFT_JOURNAL_MANUAL_COMPACTION
  | ACTIVATE_STALE_READS
  | QUARKDB_INFO | QUARKDB_DETACH | QUARKDB_ATTACH | QUARKDB_START_RESILVERING
  | QUARKDB_FINISH_RESILVERING | QUARKDB_RESILVERING_COPY_FILE | QUARKDB_CANCEL_RESILVERING
  | QUARKDB_BULKLOAD_FINALIZE | QUARKDB_INVALID_COMMAND | QUARKDB_MANUAL_COMPACTION
  | QUARKDB_LEVEL_STATS | QUARKDB_COMPRESSION_STATS | QUARKDB_VERSION | QUARKDB_CHECKPOINT
  | QUARKDB_HEALTH | QUARKDB_VERIFY_CHECKSUM
  | RECOVERY_GET | RECOVERY_SET | RECOVERY_DEL | RECOVERY_INFO
  | RECOVERY_FORCE_RECONFIGURE_JOURNAL | RECOVERY_SCAN | RECOVERY_GET_ALL_VERSIONS
  | CONVERT_STRING_TO_INT | CONVERT_INT_TO_STRING
  | PUBLISH | SUBSCRIBE | PSUBSCRIBE | UNSUBSCRIBE | PUNSUBSCRIBE
  deriving Repr, DecidableEq

inductive CommandType
  | INVALID | READ | WRITE | CONTROL | RAFT | QUARKDB | AUTHENTICATION | RECOVERY | PUBSUB
  deriving Repr, DecidableEq

/-- How the comparator of the command map reads a character: in lower case, and a
dash as an underscore. -/
def normalize (c : UInt8) : UInt8 :=
  let lower := if 65 ≤ c && c ≤ 90 then c + 32 else c
  if lower = 45 then 95 else lower

/-- `redis_cmd_map`. -/
def redisCmdMap : List (String × RedisCommand × CommandType) :=
  [("ping", .PING, .CONTROL),
    ("debug", .DEBUG, .CONTROL),
    ("monitor", .MONITOR, .CONTROL),
    ("client_id", .CLIENT_ID, .CONTROL),
    ("command_stats", .COMMAND_STATS, .CONTROL),
    ("activate_push_types", .ACTIVATE_PUSH_TYPES, .CONTROL),
    ("client", .CLIENT, .CONTROL),
    ("auth", .AUTH, .AUTHENTICATION),
    ("hmac_auth_generate_challenge", .HMAC_AUTH_GENERATE_CHALLENGE, .AUTHENTICATION),
    ("hmac_auth_validate_challenge", .HMAC_AUTH_VALIDATE_CHALLENGE, .AUTHENTICATION),
    ("get", .GET, .READ),
    ("exists", .EXISTS, .READ),
    ("keys", .KEYS, .READ),
    ("scan", .SCAN, .READ),
    ("hget", .HGET, .READ),
    ("hexists", .HEXISTS, .READ),
    ("hkeys", .HKEYS, .READ),
    ("hgetall", .HGETALL, .READ),
    ("hlen", .HLEN, .READ),
    ("hvals", .HVALS, .READ),
    ("hscan", .HSCAN, .READ),
    ("sismember", .SISMEMBER, .READ),
    ("smembers", .SMEMBERS, .READ),
    ("scard", .SCARD, .READ),
    ("sscan", .SSCAN, .READ),
    ("deque_len", .DEQUE_LEN, .READ),
    ("deque_scan_back", .DEQUE_SCAN_BACK, .READ),
    ("config_get", .CONFIG_GET, .READ),
    ("config_getall", .CONFIG_GETALL, .READ),
    ("lhget", .LHGET, .READ),
    ("lhlen", .LHLEN, .READ),
    ("lhscan", .LHSCAN, .READ),
    ("lhget_with_fallback", .LHGET_WITH_FALLBACK, .READ),
    ("raw_scan_tombstones", .RAW_SCAN_TOMBSTONES, .READ),
    ("raw_scan", .RAW_SCAN, .READ),
    ("raw_get_all_versions", .RAW_GET_ALL_VERSIONS, .READ),
    ("clock_get", .CLOCK_GET, .READ),
    ("type", .TYPE, .READ),
    ("vhgetall", .VHGETALL, .READ),
    ("vhlen", .VHLEN, .READ),
    ("lease_get_pending_expiration_events", .LEASE_GET_PENDING_EXPIRATION_EVENTS, .READ),
    ("flushall", .FLUSHALL, .WRITE),
    ("set", .SET, .WRITE),
    ("del", .DEL, .WRITE),
    ("hset", .HSET, .WRITE),
    ("hmset", .HMSET, .WRITE),
    ("hsetnx", .HSETNX, .WRITE),
    ("hincrby", .HINCRBY, .WRITE),
    ("hincrbyfloat", .HINCRBYFLOAT, .WRITE),
    ("hincrbymulti", .HINCRBYMULTI, .WRITE),
    ("hdel", .HDEL, .WRITE),
    ("hclone", .HCLONE, .WRITE),
    ("sadd", .SADD, .WRITE),
    ("srem", .SREM, .WRITE),
    ("smove", .SMOVE, .WRITE),
    ("deque_push_front", .DEQUE_PUSH_FRONT, .WRITE),
    ("deque_pop_front", .DEQUE_POP_FRONT, .WRITE),
    ("deque_push_back", .DEQUE_PUSH_BACK, .WRITE),
    ("deque_pop_back", .DEQUE_POP_BACK, .WRITE),
    ("deque_trim_front", .DEQUE_TRIM_FRONT, .WRITE),
    ("deque_clear", .DEQUE_CLEAR, .WRITE),
    ("config_set", .CONFIG_SET, .WRITE),
    ("lhset", .LHSET, .WRITE),
    ("lhdel", .LHDEL, .WRITE),
    ("lhlocdel", .LHLOCDEL, .WRITE),
    ("lhmset", .LHMSET, .WRITE),
    ("lhdel_with_fallback", .LHDEL_WITH_FALLBACK, .WRITE),
    ("lhset_and_del_fallback", .LHSET_AND_DEL_FALLBACK, .WRITE),
    ("convert_hash_field_to_lhash", .CONVERT_HASH_FIELD_TO_LHASH, .WRITE),
    ("lease_acquire", .LEASE_ACQUIRE, .WRITE),
    ("lease_get", .LEASE_GET, .WRITE),
    ("lease_release", .LEASE_RELEASE, .WRITE),
    ("timestamped_lease_acquire", .TIMESTAMPED_LEASE_ACQUIRE, .WRITE),
    ("timestamped_lease_get", .TIMESTAMPED_LEASE_GET, .WRITE),
    ("timestamped_lease_release", .TIMESTAMPED_LEASE_RELEASE, .WRITE),
    ("vhset", .VHSET, .WRITE),
    ("vhdel", .VHDEL, .WRITE),
    ("exec", .EXEC, .CONTROL),
    ("discard", .DISCARD, .CONTROL),
    ("multi", .MULTI, .CONTROL),
    ("tx_readonly", .TX_READONLY, .READ),
    ("tx_readwrite", .TX_READWRITE, .WRITE),
    ("artificially_slow_write_never_use_this", .ARTIFICIALLY_SLOW_WRITE_NEVER_USE_THIS, .WRITE),
    ("multiop_read", .TX_READONLY, .READ),
    ("multiop_readwrite", .TX_READWRITE, .WRITE),
    ("raft_handshake", .RAFT_HANDSHAKE, .RAFT),
    ("raft_append_entries", .RAFT_APPEND_ENTRIES, .RAFT),
    ("raft_info", .RAFT_INFO, .RAFT),
    ("raft_leader_info", .RAFT_LEADER_INFO, .RAFT),
    ("raft_request_vote", .RAFT_REQUEST_VOTE, .RAFT),
    ("raft_request_pre_vote", .RAFT_REQUEST_PRE_VOTE, .RAFT),
    ("raft_fetch", .RAFT_FETCH, .RAFT),
    ("raft_attempt_coup", .RAFT_ATTEMPT_COUP, .RAFT),
    ("raft_add_observer", .RAFT_ADD_OBSERVER, .RAFT),
    ("raft_remove_member", .RAFT_REMOVE_MEMBER, .RAFT),
    ("raft_promote_observer", .RAFT_PROMOTE_OBSERVER, .RAFT),
    ("raft_demote_to_observer", .RAFT_DEMOTE_TO_OBSERVER, .RAFT),
    ("raft_heartbeat", .RAFT_HEARTBEAT, .RAFT),
    ("raft_fetch_last", .RAFT_FETCH_LAST, .RAFT),
    ("raft_journal_scan", .RAFT_JOURNAL_SCAN, .RAFT),
    ("raft_set_fsync_policy", .RAFT_SET_FSYNC_POLICY, .RAFT),
    ("raft_observe_term", .RAFT_OBSERVE_TERM, .RAFT),
    ("raft_journal_manual_compaction", .RAFT_JOURNAL_MANUAL_COMPACTION, .RAFT),
    ("activate_stale_reads", .ACTIVATE_STALE_READS, .RAFT),
    ("quarkdb_info", .QUARKDB_INFO, .QUARKDB),
    ("quarkdb_detach", .QUARKDB_DETACH, .QUARKDB),
    ("quarkdb_attach", .QUARKDB_ATTACH, .QUARKDB),
    ("quarkdb_start_resilvering", .QUARKDB_START_RESILVERING, .QUARKDB),
    ("quarkdb_finish_resilvering", .QUARKDB_FINISH_RESILVERING, .QUARKDB),
    ("quarkdb_resilvering_copy_file", .QUARKDB_RESILVERING_COPY_FILE, .QUARKDB),
    ("quarkdb_cancel_resilvering", .QUARKDB_CANCEL_RESILVERING, .QUARKDB),
    ("quarkdb_bulkload_finalize", .QUARKDB_BULKLOAD_FINALIZE, .QUARKDB),
    ("quarkdb_invalid_command", .QUARKDB_INVALID_COMMAND, .QUARKDB),
    ("quarkdb_manual_compaction", .QUARKDB_MANUAL_COMPACTION, .QUARKDB),
    ("quarkdb_level_stats", .QUARKDB_LEVEL_STATS, .QUARKDB),
    ("quarkdb_compression_stats", .QUARKDB_COMPRESSION_STATS, .QUARKDB),
    ("quarkdb_version", .QUARKDB_VERSION, .QUARKDB),
    ("quarkdb_checkpoint", .QUARKDB_CHECKPOINT, .QUARKDB),
    ("quarkdb_health", .QUARKDB_HEALTH, .QUARKDB),
    ("quarkdb_verify_checksum", .QUARKDB_VERIFY_CHECKSUM, .QUARKDB),
    ("raft_checkpoint", .QUARKDB_CHECKPOINT, .QUARKDB),
    ("recovery_info", .RECOVERY_INFO, .RECOVERY),
    ("recovery_set", .RECOVERY_SET, .RECOVERY),
    ("recovery_get", .RECOVERY_GET, .RECOVERY),
    ("recovery_del", .RECOVERY_DEL, .RECOVERY),
    ("recovery_force_reconfigure_journal", .RECOVERY_FORCE_RECONFIGURE_JOURNAL, .RECOVERY),
    ("recovery_scan", .RECOVERY_SCAN, .RECOVERY),
    ("recovery_get_all_versions", .RECOVERY_GET_ALL_VERSIONS, .RECOVERY),
    ("convert_string_to_int", .CONVERT_STRING_TO_INT, .CONTROL),
    ("convert_int_to_string", .CONVERT_INT_TO_STRING, .CONTROL),
    ("publish", .PUBLISH, .PUBSUB),
    ("subscribe", .SUBSCRIBE, .PUBSUB),
    ("psubscribe", .PSUBSCRIBE, .PUBSUB),
    ("unsubscribe", .UNSUBSCRIBE, .PUBSUB),
    ("punsubscribe", .PUNSUBSCRIBE, .PUBSUB)]

/-- Two names are one key of the map when the comparator tells neither of them apart. -/
def sameCommand (name : String) (word : Bytes) : Bool :=
  (ascii name).map normalize = word.map normalize

def findCommand (word : Bytes) : Option (RedisCommand × CommandType) :=
  (redisCmdMap.find? fun row => sameCommand row.1 word).map Prod.snd

/-- `RedisRequest::parseCommand`: what the first part of the request names. -/
def parseCommand : RedisRequest → RedisCommand × CommandType
  | [] => (.INVALID, .INVALID)
  | word :: _ => (findCommand word).getD (.INVALID, .INVALID)

def getCommand (request : RedisRequest) : RedisCommand := (parseCommand request).1

def getCommandType (request : RedisRequest) : CommandType := (parseCommand request).2

example : getCommand [ascii "Tx-ReadWrite", [], []] = .TX_READWRITE := by decide +kernel

theorem parseCommand_cons (word : Bytes) (parts : List Bytes) :
    parseCommand (word :: parts) = (findCommand word).getD (.INVALID, .INVALID) := rfl

-- For a request that is spelled out the kernel would look it up in the table again.
theorem getCommand_of_parsed {request : RedisRequest} {row : RedisCommand × CommandType}
    (h : parseCommand request = row) : getCommand request = row.1 :=
  congrArg Prod.fst h

theorem getCommandType_of_parsed {request : RedisRequest} {row : RedisCommand × CommandType}
    (h : parseCommand request = row) : getCommandType request = row.2 :=
  congrArg Prod.snd h

/-- No command has an empty name. -/
theorem findCommand_nil : findCommand [] = none := by
  have hnames : ∀ row ∈ redisCmdMap, row.1 ≠ "" := by decide +kernel
  unfold findCommand
  rw [List.find?_eq_none.mpr]
  · rfl
  intro row hrow hsame
  simp only [sameCommand, ascii, List.map_nil, decide_eq_true_eq, List.map_eq_nil_iff] at hsame
  exact hnames row hrow (String.toList_eq_nil_iff.mp hsame)

end quarkdb
