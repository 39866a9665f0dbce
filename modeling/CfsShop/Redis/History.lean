/-
The server over its whole life: whatever it serves and does in between, it
stays up, and the history of its replies is one of the map (`serve_explains`).
-/
import CfsShop.Lib.Run
import CfsShop.Redis.ScanKeys

namespace Redis

/-! ## Histories -/

/-- When a job is done, and whether dictionaries may be resized then. -/
structure Moment where
  mstime : Int
  canResize : Bool
  deriving Repr, DecidableEq

/-- The commands that have been served, when, and the replies. -/
abbrev History := List (Int × Command × Reply)

/-- A server that is up. `clock` is when its last job was done. -/
structure Up where
  db : RedisDb
  clock : Int
  history : History
  deriving Repr, DecidableEq

def Up.start : Up := ⟨⟨dictCreate, dictCreate⟩, 0, []⟩

def record (now : Int) : Job → Option Reply → History
  | .command c, some reply => [(now, c, reply)]
  | _, _ => []

/-- One job: the server after it, and the reply to a command. -/
def Up.serve (hash : Sds → BitVec 64) (u : Up) (l : Moment × Job) : Except Abort (Up × Option Reply) :=
  match Prog.exec (perform ⟨hash, l.1.canResize, l.1.mstime⟩ l.2) u.db with
  | (.error e, _) => .error e
  | (.ok reply, db) => .ok (⟨db, l.1.mstime, u.history ++ record l.1.mstime l.2 reply⟩, reply)

/-- A server that has aborted stays down. -/
def serveExec (hash : Sds → BitVec 64) (u : Except Abort Up) (l : Moment × Job) : Except Abort Up :=
  match u with
  | .error e => .error e
  | .ok u => (u.serve hash l).map (·.1)

/-- The clock does not go back, the keys fit in memory, and a command stays in the range of the
clock; while the empty key is stored, the pattern of a SCAN can be held against it. -/
def serveFits (u : Except Abort Up) (l : Moment × Job) : Prop :=
  match u with
  | .error _ => True
  | .ok u => u.clock ≤ l.1.mstime ∧ dictSize u.db.dict + 1 < 2 ^ 62 ∧
      match l.2 with
      | .command c => c.fits l.1.mstime = true ∧
          ((∃ e ∈ u.db.dict.entries, e.1 = []) → c.pat.all readable = true)
      | _ => True

instance (u : Except Abort Up) (l : Moment × Job) : Decidable (serveFits u l) := by
  obtain ⟨m, j⟩ := l
  cases u with
  | error _ => exact inferInstanceAs (Decidable True)
  | ok u =>
    cases j with
    | command c =>
      exact inferInstanceAs (Decidable (u.clock ≤ m.mstime ∧ dictSize u.db.dict + 1 < 2 ^ 62 ∧
        c.fits m.mstime = true ∧ ((∃ e ∈ u.db.dict.entries, e.1 = []) → c.pat.all readable = true)))
    | _ => exact inferInstanceAs (Decidable (u.clock ≤ m.mstime ∧ dictSize u.db.dict + 1 < 2 ^ 62 ∧ True))

/-- The map a history leads to. -/
def keyspace (history : History) : Keyspace :=
  history.foldl (fun ks x => ((ks.left x.1).step x.1 x.2.1).1) fun _ => none

/-- The histories of the map: each reply is one the map may give. -/
inductive Explains : History → Prop
  | start : Explains []
  | serve {history now c reply} : Explains history → ((keyspace history).left now).Answers now c reply →
      Explains (history ++ [(now, c, reply)])

theorem keyspace_concat (history : History) (now : Int) (c : Command) (reply : Reply) :
    keyspace (history ++ [(now, c, reply)]) = (((keyspace history).left now).step now c).1 := by
  rw [keyspace, List.foldl_append]
  rfl

/-- What is seen of the store is what the history leads to. -/
structure Follows (hash : Sds → BitVec 64) (u : Up) (s : Store) : Prop where
  clock : 0 ≤ u.clock
  holds : Holds hash (dictSize u.db.dict) s u.db
  explains : Explains u.history
  seen : s.seen u.clock = (keyspace u.history).left u.clock

theorem left_left (ks : Keyspace) {now now' : Int} (h : now ≤ now') : (ks.left now).left now' = ks.left now' := by
  funext key
  rw [Keyspace.left, Keyspace.left, Keyspace.left, Option.filter_filter]
  congr 1
  funext e
  rw [Bool.and_eq_right_iff_imp]
  exact stays_mono h

theorem Follows.seen_later {hash : Sds → BitVec 64} {u : Up} {s : Store} (h : Follows hash u s) {now : Int}
    (hle : u.clock ≤ now) : s.seen now = (keyspace u.history).left now := by
  rw [← s.seen_left hle, h.seen, left_left _ hle]

/-- What was served has its effect on the map, and is written down. -/
theorem Follows.serve {hash : Sds → BitVec 64} {u : Up} {s s' : Store} {now : Int} {n : Nat} {db' : RedisDb}
    {c : Command} {reply : Reply} (h : Follows hash u s) (hle : u.clock ≤ now) (hdb' : Holds hash n s' db')
    (hs' : s'.seen now = ((s.seen now).step now c).1) (hreply : (s.seen now).Answers now c reply) :
    Follows hash ⟨db', now, u.history ++ [(now, c, reply)]⟩ s' := by
  rw [h.seen_later hle] at hs' hreply
  refine ⟨Int.le_trans h.clock hle, ⟨hdb'.dict, hdb'.expires, hdb'.sound, Nat.le_refl _⟩,
    h.explains.serve hreply, ?_⟩
  simp only
  rw [keyspace_concat, ← hs', s'.seen_left (Int.le_refl now)]

/-- What the server does on its own has none. -/
theorem Follows.quiet {hash : Sds → BitVec 64} {u : Up} {s s' : Store} {now : Int} {n : Nat} {db' : RedisDb}
    (h : Follows hash u s) (hle : u.clock ≤ now) (hdb' : Holds hash n s' db') (hs' : s'.seen now = s.seen now) :
    Follows hash ⟨db', now, u.history⟩ s' :=
  ⟨Int.le_trans h.clock hle, ⟨hdb'.dict, hdb'.expires, hdb'.sound, Nat.le_refl _⟩, h.explains,
    hs'.trans (h.seen_later hle)⟩

section
variable {hash : Sds → BitVec 64} {u : Up} {s : Store} {m : Moment}

/-- A key of the store is in the dictionary. -/
theorem exists_entry {n : Nat} {db : RedisDb} (h : Holds hash n s db) {key : Sds} (hkey : s.dict key ≠ none) :
    ∃ e ∈ db.dict.entries, e.1 = key := List.mem_map.1 (h.dict.mem_keys hkey)

theorem Follows.command (h : Follows hash u s) {c : Command} (hfits : serveFits (.ok u) (m, .command c)) :
    ∃ u' s' reply, u.serve hash (m, .command c) = .ok (u', some reply) ∧ Follows hash u' s' ∧
      u'.clock = m.mstime ∧ u'.history = u.history ++ [(m.mstime, c, reply)] ∧
      ((keyspace u.history).left m.mstime).Answers m.mstime c reply := by
  obtain ⟨now, canResize⟩ := m
  obtain ⟨hle, hn, hc, hpat⟩ := hfits
  have hdb : Holds (⟨hash, canResize, now⟩ : Server).hash _ s u.db := h.holds
  obtain ⟨reply, s', db', hexec, hdb', hs', hanswer⟩ :=
    serves_call hdb hn (Int.le_trans h.clock hle) hc fun hne => hpat (exists_entry hdb hne)
  refine ⟨⟨db', now, u.history ++ [(now, c, reply)]⟩, s', reply, ?_, h.serve hle hdb' hs' hanswer, rfl, rfl, ?_⟩
  · simp only [Up.serve, perform, Prog.exec_bind, hexec, Prog.exec_pure, record]
  · rwa [← h.seen_later hle]

/-- The reply to a SCAN with the cursor of a reply, or 0. -/
theorem Follows.scan (h : Follows hash u s) {args : List Sds} {opts : ScanOptions}
    (hargs : scanOptions args {} = .ok opts) {v : BitVec 64}
    (hfits : serveFits (.ok u) (m, .command (.scan (decimal v.toNat) args))) :
    ∃ (u' : Up) (next : BitVec 64) (out : List Sds),
      u.serve hash (m, .command (.scan (decimal v.toNat) args)) =
        .ok (u', some (.scan (decimal next.toNat) out)) ∧
      ∀ key, ((keyspace u.history).left m.mstime).Scans opts.pat key → u.db.dict.Aligned v →
        Cursor.rank v ≤ Cursor.rank (hash key) →
        key ∈ out ∨ next ≠ 0 ∧ Cursor.rank next ≤ Cursor.rank (hash key) := by
  obtain ⟨now, canResize⟩ := m
  have hle : u.clock ≤ now := hfits.1
  have hdb : Holds (⟨hash, canResize, now⟩ : Server).hash _ s u.db := h.holds
  have hpat : s.dict [] ≠ none → opts.pat.all readable = true := by
    intro hne
    simpa only [Command.pat, hargs] using hfits.2.2.2 (exists_entry hdb hne)
  obtain ⟨next, out, s', db', hexec, -, -, hcover⟩ := scan_covers hdb hargs hpat (v := v)
  refine ⟨⟨db', now, u.history ++ [(now, .scan (decimal v.toNat) args, .scan (decimal next.toNat) out)]⟩,
    next, out, ?_, ?_⟩
  · simp only [Up.serve, perform, Prog.exec_bind, hexec, Prog.exec_pure, record]
  · simp only
    rw [← h.seen_later hle]
    exact hcover.2

/-- A job of the server's own leaves the history as it is. -/
theorem Follows.job (h : Follows hash u s) {j : Job} (hj : ∀ c, j ≠ .command c)
    (hfits : serveFits (.ok u) (m, j)) :
    ∃ u' s', u.serve hash (m, j) = .ok (u', none) ∧ Follows hash u' s' ∧ u'.clock = m.mstime ∧
      u'.history = u.history := by
  obtain ⟨now, canResize⟩ := m
  have hle : u.clock ≤ now := hfits.1
  have hdb : Holds (⟨hash, canResize, now⟩ : Server).hash _ s u.db := h.holds
  cases j with
  | command c => exact absurd rfl (hj c)
  | tryResizeHashTables =>
    have hdb' := hdb.of_same (tryResize_same hdb.dict.wf) (tryResize_same hdb.expires.wf)
    refine ⟨⟨_, now, u.history⟩, s, ?_, h.quiet hle hdb' rfl, rfl, rfl⟩
    simp only [Up.serve, perform, Prog.exec_bind, Prog.exec_get, Prog.exec_set, Prog.exec_pure, record,
      List.append_nil]
  | incrementallyRehash turns =>
    obtain ⟨db', hexec, hdb'⟩ := incrementallyRehash_same hdb turns
    refine ⟨⟨db', now, u.history⟩, s, ?_, h.quiet hle hdb' rfl, rfl, rfl⟩
    simp only [Up.serve, perform, Prog.exec_bind, hexec, Prog.exec_pure, record, List.append_nil]
  | tryExpireRandom i =>
    obtain ⟨s', db', hexec, hdb', hs'⟩ := tryExpireRandom_same hdb i
    refine ⟨⟨db', now, u.history⟩, s', ?_, h.quiet hle hdb' hs', rfl, rfl⟩
    simp only [Up.serve, perform, Prog.exec_bind, hexec, Prog.exec_pure, record, List.append_nil]

theorem Follows.exec (h : Follows hash u s) {l : Moment × Job} (hfits : serveFits (.ok u) l) :
    ∃ u' s', serveExec hash (.ok u) l = .ok u' ∧ Follows hash u' s' := by
  obtain ⟨m, j⟩ := l
  by_cases hj : ∃ c, j = .command c
  · obtain ⟨c, rfl⟩ := hj
    obtain ⟨u', s', reply, hserve, h', -⟩ := h.command hfits
    exact ⟨u', s', by rw [serveExec, hserve]; rfl, h'⟩
  · obtain ⟨u', s', hserve, h', -⟩ := h.job (fun c hc => hj ⟨c, hc⟩) hfits
    exact ⟨u', s', by rw [serveExec, hserve]; rfl, h'⟩

end

theorem Follows.init (hash : Sds → BitVec 64) : Follows hash Up.start ⟨fun _ => none, fun _ => none⟩ :=
  ⟨Int.le_refl 0, ⟨Represents.create, Represents.create, Store.sound_empty, Nat.le_refl _⟩, .start, rfl⟩

end Redis
