/-
What one step does: the command of a method, or the job of the others, is
served by a server that stays up, and goes into the log (`step_spec`). What
this means for one key is said by `here` and the lemmas about it.
-/
import CfsShop.ShiroRedis.RedisCache

namespace ShiroRedis

open Redis

variable {hash : Sds → BitVec 64} {deserializes : Sds → Bool}

/-! ## Steps -/

/-- The server can serve what it is asked. -/
def Fits (p : Callers) (l : Label Caller Choice) : Prop :=
  Pool.Guarded (fun p x c => ∀ j ∈ c.job x, serveFits p.store (x.moment, j)) p l

instance (p : Callers) (l : Label Caller Choice) : Decidable (Fits p l) :=
  inferInstanceAs (Decidable (Pool.Guarded _ p l))

/-- The ways a step can go while the server is up. -/
inductive Served (hash : Sds → BitVec 64) (deserializes : Sds → Bool) (x : Choice) (u u' : Up) :
    Caller → Caller → List Sent → Prop
  | job : u'.history = u.history → Served hash deserializes x u u' .others .others []
  | command {c cmd reply} : c.job x = some (.command cmd) →
      u.serve hash (x.moment, .command cmd) = .ok (u', some reply) →
      u'.history = u.history ++ [(x.moment.mstime, cmd, reply)] →
      ((keyspace u.history).left x.moment.mstime).Answers x.moment.mstime cmd reply →
      Served hash deserializes x u u' c (c.receives deserializes x.index (some reply))
        [(c.region, x.moment.mstime, cmd, reply)]

theorem Caller.sends_of_job {x : Choice} {r : Region} {f : Frame} {cmd : Command}
    (h : (client r f).job x = some (.command cmd)) : f.sends r x.index = some cmd := by
  obtain ⟨cmd', hsends, hcmd⟩ := Option.map_eq_some_iff.1 h
  obtain rfl : cmd' = cmd := by injection hcmd
  exact hsends

theorem Caller.job_ne_command {x : Choice} {c : Caller} {j : Job} (hj : c.job x = some j)
    (hne : ∀ cmd, j ≠ .command cmd) : c = .others := by
  cases c with
  | others => rfl
  | client r f =>
    obtain ⟨cmd, -, rfl⟩ := Option.map_eq_some_iff.1 hj
    exact absurd rfl (hne cmd)

theorem step_spec {x : Choice} {u : Up} {c c' : Caller} {s' : Except Abort Up} {es : List Sent}
    (h : ∃ s, Follows hash u s) (hfits : ∀ j ∈ c.job x, serveFits (.ok u) (x.moment, j))
    (hstep : step hash deserializes x (.ok u) c = some (s', c', es)) :
    ∃ u', s' = .ok u' ∧ (∃ s, Follows hash u' s) ∧ u.clock ≤ x.moment.mstime ∧ u'.clock = x.moment.mstime ∧
      Served hash deserializes x u u' c c' es := by
  obtain ⟨s, h⟩ := h
  cases hj : c.job x with
  | none => simp [step, hj] at hstep
  | some j =>
    have hfit := hfits j hj
    simp only [step, hj] at hstep
    by_cases hc : ∃ cmd, j = .command cmd
    · obtain ⟨cmd, rfl⟩ := hc
      obtain ⟨u', s', reply, hserve, h', hclock, hhist, hanswer⟩ := h.command hfit
      rw [hserve] at hstep
      obtain ⟨rfl, rfl, rfl⟩ := hstep
      exact ⟨u', rfl, ⟨s', h'⟩, hfit.1, hclock, .command hj hserve hhist hanswer⟩
    · have hne : ∀ cmd, j ≠ .command cmd := fun cmd hcmd => hc ⟨cmd, hcmd⟩
      obtain ⟨u', s', hserve, h', hclock, hhist⟩ := h.job hne hfit
      obtain rfl := Caller.job_ne_command hj hne
      rw [hserve] at hstep
      obtain ⟨rfl, rfl, rfl⟩ := hstep
      have hrecord : record x.moment.mstime j none = [] := by
        cases j <;> rfl
      rw [hrecord]
      exact ⟨u', rfl, ⟨s', h'⟩, hfit.1, hclock, .job hhist⟩

theorem receives_of_step {x : Choice} {s s' : Except Abort Up} {c c' : Caller} {es : List Sent}
    (h : step hash deserializes x s c = some (s', c', es)) :
    ∃ reply, c' = c.receives deserializes x.index reply := by
  simp only [step] at h
  split at h
  · exact absurd h.symm (Option.some_ne_none _)
  · obtain ⟨-, rfl, -⟩ := h
    exact ⟨none, rfl⟩
  · split at h
    · obtain ⟨-, rfl, -⟩ := h
      exact ⟨none, rfl⟩
    · next reply _ =>
      obtain ⟨-, rfl, -⟩ := h
      exact ⟨reply, rfl⟩

/-! ## Runs -/

/-- The server is up, and the log is its history. -/
def Alive (hash : Sds → BitVec 64) (p : Callers) : Prop :=
  ∃ u, p.store = .ok u ∧ (∃ s, Follows hash u s) ∧ u.history = p.log.map (·.2)

theorem alive_start : Alive hash start := ⟨Up.start, rfl, ⟨_, Follows.init hash⟩, rfl⟩

theorem alive_exec {p : Callers} {l : Label Caller Choice} (h : Alive hash p) (hfits : Fits p l) :
    Alive hash (p.exec (machine hash deserializes) l) := by
  obtain ⟨u, hu, hfollows, hlog⟩ := h
  have hm := Pool.exec_move (machine hash deserializes) p l
  generalize p.exec (machine hash deserializes) l = p' at hm
  cases hm with
  | idle | spawn _ | stop _ => exact ⟨u, hu, hfollows, hlog⟩
  | @run pre f post x s f' es hth hs =>
    have hfit := Pool.Guarded.of_run hfits hth
    rw [hu] at hfit hs
    obtain ⟨u', rfl, hfollows', -, -, hserved⟩ := step_spec hfollows hfit hs
    refine ⟨u', rfl, hfollows', ?_⟩
    cases hserved with
    | job hhist => rw [hhist, hlog, List.append_nil]
    | command _ _ hhist _ => rw [hhist, hlog, List.map_append, List.map_singleton]

theorem alive_always {p : Callers} {ls : List (Label Caller Choice)} (h : Alive hash p)
    (hfits : Run.Along (Pool.exec (machine hash deserializes)) Fits p ls) :
    Run.Always (Pool.exec (machine hash deserializes)) (Alive hash) p ls :=
  hfits.always (fun _ _ => alive_exec) h

theorem after_append (ls ls' : List (Label Caller Choice)) : after hash deserializes (ls ++ ls') =
    Run.run (Pool.exec (machine hash deserializes)) (after hash deserializes ls) ls' := Run.run_append ..

theorem alive_after {ls : List (Label Caller Choice)}
    (hfits : Run.Along (Pool.exec (machine hash deserializes)) Fits start ls) :
    Alive hash (after hash deserializes ls) := (alive_always alive_start hfits).last

/-! ## One key -/

/-- What the map has at a key. -/
def here (s : Except Abort Up) (key : Sds) : Option (Sds × Option Int) :=
  match s with
  | .error _ => none
  | .ok u => (keyspace u.history).left u.clock key

section
variable {u u' : Up} {now : Int}

/-- After a job of the server's own, what is left. -/
theorem here_job (hle : u.clock ≤ now) (hclock : u'.clock = now) (hhist : u'.history = u.history) (key : Sds) :
    here (.ok u') key = (here (.ok u) key).filter (stays now) := by
  subst hclock
  rw [here, here, hhist, ← left_left _ hle]
  rfl

/-- After a command, what the command makes of what is left. -/
theorem here_command {c : Command} {reply : Reply} (hclock : u'.clock = now)
    (hhist : u'.history = u.history ++ [(now, c, reply)]) (key : Sds) :
    here (.ok u') key = ((((keyspace u.history).left now).step now c).1 key).filter (stays now) := by
  subst hclock
  rw [here, hhist, keyspace_concat]
  rfl

end

/-- A key that comes to be there is stored by a command. -/
theorem stored_exec {p : Callers} {l : Label Caller Choice} {key : Sds} (halive : Alive hash p) (hfits : Fits p l)
    (hnone : here p.store key = none) (hsome : here (p.exec (machine hash deserializes) l).store key ≠ none) :
    ∃ e, (p.exec (machine hash deserializes) l).log = p.log ++ [e] ∧ e.2.2.1.stores key = true := by
  obtain ⟨u, hu, hfollows, -⟩ := halive
  have hm := Pool.exec_move (machine hash deserializes) p l
  generalize p.exec (machine hash deserializes) l = p' at hm hsome
  cases hm with
  | idle | spawn _ | stop _ => exact absurd hnone hsome
  | @run pre f post x s f' es hth hs =>
    have hfit := Pool.Guarded.of_run hfits hth
    rw [hu] at hfit hs hnone
    obtain ⟨u', rfl, -, hle, hclock, hserved⟩ := step_spec hfollows hfit hs
    cases hserved with
    | job hhist =>
      rw [here_job hle hclock hhist, hnone] at hsome
      exact absurd rfl hsome
    | @command _ c reply _ _ hhist _ =>
      refine ⟨(f.region, x.moment.mstime, c, reply), rfl, ?_⟩
      by_contra hstores
      have hleft : (keyspace u.history).left x.moment.mstime key = none := by
        rw [← left_left _ hle, Keyspace.left]
        rw [here] at hnone
        rw [hnone]
        rfl
      rw [here_command hclock hhist, Keyspace.step_of_not_stores (by simpa using hstores) hleft] at hsome
      exact hsome rfl

end ShiroRedis
