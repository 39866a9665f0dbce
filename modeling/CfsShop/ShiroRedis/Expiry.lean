/-
How long an entry of a region stays.

`BaseRedisManager.set` sends SET and then EXPIRE, and SET alone gives an entry
that stays for good. `puts_expire` says that this is seen only while some
method stands between the two, or has been stopped there; any other entry goes
within the time of the region. A region whose time is 0, as that of a
`RedisCache` made with -1, has no other entries.
-/
import CfsShop.ShiroRedis.Apart

namespace ShiroRedis

open Redis

variable {hash : Sds → BitVec 64} {deserializes : Sds → Bool} {key : Sds} {E : Int}

/-- What touches the key are commands of regions that keep entries for at most `E` seconds. -/
def Tended (key : Sds) (E : Int) (log : List Sent) : Prop :=
  ∀ e ∈ log, e.2.2.1.touches key = true → ∃ r ∈ e.1, 0 ≤ r.expire ∧ r.expire ≤ E

instance (key : Sds) (E : Int) (log : List Sent) : Decidable (Tended key E log) :=
  inferInstanceAs (Decidable (∀ e ∈ log, e.2.2.1.touches key = true → ∃ r ∈ e.1, 0 ≤ r.expire ∧ r.expire ≤ E))

/-- If the key has a time, it is within `E` seconds; if it has none, a method is about to give it
one. -/
def Dated (key : Sds) (E : Int) (u : Up) (callers : List Caller) : Prop :=
  ∀ v t, here (.ok u) key = some (v, t) → match t with
    | none => ∃ r, .client r (.expire key) ∈ callers
    | some t => 0 < E ∧ t ≤ u.clock + 1000 * E

/-- The time is of type `int`. -/
def Caller.Timed : Caller → Prop
  | .others => True
  | .client r _ => -2 ^ 31 ≤ r.expire ∧ r.expire < 2 ^ 31

theorem Caller.timed_of_allowed {c : Caller} (h : c.allowed = true) : c.Timed := by
  cases c with
  | others => trivial
  | client r f =>
    simp only [allowed, Bool.and_eq_true, decide_eq_true_eq] at h
    exact h.1.2

theorem Caller.timed_receives {c : Caller} {i : Nat} {reply : Option Reply} (h : c.Timed) :
    (c.receives deserializes i reply).Timed := by
  cases c with
  | others => trivial
  | client r f =>
    cases reply with
    | none | some _ => exact h

/-- A method that touches the key, while it is served. -/
theorem dated_touches {r : Region} {f : Frame} {i : Nat} {u u' : Up} {now : Int} {cmd : Command} {reply : Reply}
    {pre post : List Caller} (hsends : f.sends r i = some cmd) (htouch : cmd.touches key = true)
    (hexpire : 0 ≤ r.expire ∧ r.expire ≤ E) (htimed : (Caller.client r f).Timed) (hclock : u'.clock = now)
    (hhist : u'.history = u.history ++ [(now, cmd, reply)])
    (hanswer : ((keyspace u.history).left now).Answers now cmd reply) :
    Dated key E u' (pre ++ .client r (f.receives deserializes r i reply) :: post) := by
  intro v t hhere
  rw [here_command hclock hhist] at hhere
  obtain ⟨hhere, -⟩ := Option.filter_eq_some_iff.1 hhere
  cases f with
  | set k val =>
    obtain rfl := Option.some.inj hsends
    obtain rfl : k = key := of_decide_eq_true htouch
    have hset : ((keyspace u.history).left now).step now (.set k val []) =
        (((keyspace u.history).left now).store k val none, .ok) := rfl
    obtain rfl : reply = .ok := hanswer.trans (congrArg Prod.snd hset)
    rw [hset] at hhere
    simp only [Keyspace.store, Function.update_self, Option.some.injEq, Prod.mk.injEq] at hhere
    obtain ⟨-, rfl⟩ := hhere
    refine ⟨r, ?_⟩
    rw [Frame.receives, if_pos hexpire.1]
    exact List.mem_append_right _ List.mem_cons_self
  | expire k =>
    obtain rfl := Option.some.inj hsends
    obtain rfl : k = key := of_decide_eq_true htouch
    obtain ⟨hlo, hhi⟩ : -2147483648 ≤ r.expire ∧ r.expire < 2147483648 := htimed
    have hparse : string2ll (decimal r.expire) = some r.expire :=
      string2ll_eq_some.2 ⟨⟨by rw [LLONG_MIN]; omega, by rw [LLONG_MAX]; omega⟩, rfl⟩
    have hmillis : TimeUnit.seconds.toMillis r.expire = r.expire * 1000 :=
      wrap64_eq ⟨by rw [LLONG_MIN]; omega, by rw [LLONG_MAX]; omega⟩
    rw [Keyspace.step, Keyspace.expire, hparse] at hhere
    cases hentry : (keyspace u.history).left now k with
    | none =>
      simp only [hentry] at hhere
      exact absurd hhere.symm (Option.some_ne_none _)
    | some e =>
      simp only [hentry, hmillis] at hhere
      split at hhere
      · simp [Keyspace.remove] at hhere
      · simp only [Keyspace.store, Function.update_self, Option.some.injEq, Prod.mk.injEq] at hhere
        obtain ⟨-, rfl⟩ := hhere
        simp only
        omega
  | del k previous =>
    obtain rfl := Option.some.inj hsends
    rw [Keyspace.step, Keyspace.del_of_mem _ (of_decide_eq_true htouch)] at hhere
    exact absurd hhere.symm (Option.some_ne_none _)
  | clear keys =>
    obtain ⟨k, -, rfl⟩ := Option.map_eq_some_iff.1 hsends
    rw [Keyspace.step, Keyspace.del_of_mem _ (of_decide_eq_true htouch)] at hhere
    exact absurd hhere.symm (Option.some_ne_none _)
  | get _ | remove _ | size | scan _ _ _ =>
    obtain rfl := Option.some.inj hsends
    exact absurd htouch Bool.false_ne_true
  | values keys vs =>
    obtain ⟨k, -, rfl⟩ := Option.map_eq_some_iff.1 hsends
    exact absurd htouch Bool.false_ne_true
  | returned _ | threw => exact absurd hsends.symm (Option.some_ne_none _)

/-- What the other callers do next does not matter. -/
theorem Dated.mono {u : Up} {callers callers' : List Caller} (h : Dated key E u callers)
    (hkept : ∀ r, .client r (.expire key) ∈ callers → .client r (.expire key) ∈ callers') :
    Dated key E u callers' := by
  intro v t hhere
  have hbefore := h v t hhere
  cases t with
  | none =>
    obtain ⟨r, hr⟩ := hbefore
    exact ⟨r, hkept r hr⟩
  | some t => exact hbefore

/-- Time goes on. -/
theorem Dated.later {u u' : Up} {callers : List Caller} (h : Dated key E u callers) (hle : u.clock ≤ u'.clock)
    (hhere : here (.ok u') key = (here (.ok u) key).filter (stays u'.clock)) : Dated key E u' callers := by
  intro v t ht
  rw [hhere] at ht
  have hbefore := h v t (Option.filter_eq_some_iff.1 ht).1
  cases t with
  | none => exact hbefore
  | some t =>
    simp only at hbefore ⊢
    omega

theorem dated_step {x : Choice} {u : Up} {log es : List Sent} {c c' : Caller} {s' : Except Abort Up}
    {pre post : List Caller} (hfollows : ∃ s, Follows hash u s)
    (hfits : ∀ j ∈ c.job x, serveFits (.ok u) (x.moment, j)) (htimed : c.Timed)
    (hstep : step hash deserializes x (.ok u) c = some (s', c', es)) (h : Dated key E u (pre ++ c :: post))
    (htended : Tended key E (log ++ es)) : ∃ u', s' = .ok u' ∧ Dated key E u' (pre ++ c' :: post) := by
  obtain ⟨u', rfl, -, hle, hclock, hserved⟩ := step_spec hfollows hfits hstep
  refine ⟨u', rfl, ?_⟩
  cases hserved with
  | job hhist =>
    refine h.later (by omega) ?_
    rw [here_job hle hclock hhist, hclock]
  | @command _ cmd reply hjob hserve hhist hanswer =>
    by_cases htouch : cmd.touches key = true
    · obtain ⟨r, hregion, hexpire⟩ := htended _ (List.mem_append_right _ (List.mem_singleton.2 rfl)) htouch
      cases c with
      | others => exact absurd hregion (Option.not_mem_none r)
      | client r' f =>
        obtain rfl := Option.some.inj hregion
        have hsends := Caller.sends_of_job hjob
        exact dated_touches hsends htouch hexpire htimed hclock hhist hanswer
    · have hleft : here (.ok u') key = (here (.ok u) key).filter (stays x.moment.mstime) := by
        rw [here_command hclock hhist, Keyspace.step_of_not_touches (by simpa using htouch)]
        exact (congrFun (left_left (keyspace u.history) (Int.le_refl _)) key).trans
          (congrFun (left_left (keyspace u.history) hle) key).symm
      refine (h.later (by omega) (hclock ▸ hleft)).mono fun r hr => ?_
      rw [List.mem_append, List.mem_cons] at hr ⊢
      rcases hr with hr | rfl | hr
      · exact .inl hr
      · -- The method that is about to give the key a time touches the key.
        have hsends := Caller.sends_of_job hjob
        obtain rfl := Option.some.inj hsends
        exact absurd (decide_eq_true rfl) htouch
      · exact .inr (.inr hr)

theorem Tended.before {log es : List Sent} (h : Tended key E (log ++ es)) : Tended key E log :=
  fun e he => h e (List.mem_append_left _ he)

/-- While only the regions touch the key, it is dated. -/
structure Kept (hash : Sds → BitVec 64) (key : Sds) (E : Int) (p : Callers) : Prop where
  alive : Alive hash p
  timed : ∀ t ∈ p.threads, t.frame.Timed
  dated : Tended key E p.log → ∃ u, p.store = .ok u ∧ Dated key E u p.frames

theorem kept_exec {p : Callers} {l : Label Caller Choice} (h : Kept hash key E p) (hfits : Fits p l) :
    Kept hash key E (p.exec (machine hash deserializes) l) := by
  have hm := Pool.exec_move (machine hash deserializes) p l
  refine ⟨alive_exec h.alive hfits, ?_, ?_⟩
  · refine hm.threads h.timed (fun c hc => Caller.timed_of_allowed hc) ?_ ?_
    · intro x c s' c' es hmem hs
      obtain ⟨reply, rfl⟩ := receives_of_step hs
      exact Caller.timed_receives (h.timed _ hmem)
    · intro i t _ ht
      exact h.timed t (List.mem_of_getElem? ht)
  · generalize p.exec (machine hash deserializes) l = p' at hm
    cases hm with
    | idle => exact h.dated
    | @spawn f hf =>
      intro htended
      obtain ⟨u, hu, hdated⟩ := h.dated htended
      refine ⟨u, hu, hdated.mono fun r hr => ?_⟩
      rw [Pool.frames, List.map_append]
      exact List.mem_append_left _ hr
    | @stop pre t post hth =>
      intro htended
      obtain ⟨u, hu, hdated⟩ := h.dated htended
      refine ⟨u, hu, hdated.mono fun r hr => ?_⟩
      rw [Pool.frames, hth, List.map_append, List.map_cons] at hr
      rw [Pool.frames, List.map_append, List.map_cons]
      exact hr
    | @run pre f post x s f' es hth hs =>
      intro htended
      obtain ⟨u, hu, hdated⟩ := h.dated htended.before
      obtain ⟨u', hu', hfollows, -⟩ := h.alive
      obtain rfl : u = u' := Except.ok.inj (hu.symm.trans hu')
      have hfit := Pool.Guarded.of_run hfits hth
      have htimed := h.timed ⟨f, true⟩ (by simp [hth])
      rw [hu] at hfit hs
      rw [Pool.frames, hth, List.map_append, List.map_cons] at hdated
      obtain ⟨u', rfl, hdated'⟩ := dated_step hfollows hfit htimed hs hdated htended
      refine ⟨u', rfl, ?_⟩
      rw [Pool.frames, List.map_append, List.map_cons]
      exact hdated'

theorem kept_after {ls : List (Label Caller Choice)}
    (hfits : Run.Along (Pool.exec (machine hash deserializes)) Fits start ls) :
    Kept hash key E (after hash deserializes ls) := by
  have hstart : Kept hash key E start := by
    refine ⟨alive_start, fun _ ht => absurd ht List.not_mem_nil, fun _ => ⟨Up.start, rfl, ?_⟩⟩
    exact fun _ _ hhere => absurd hhere.symm (Option.some_ne_none _)
  exact (hfits.always (fun _ _ => kept_exec) hstart).last

/-- **An entry without a time is one that a method is about to give one, or was when it stopped.** -/
theorem puts_expire (ls : List (Label Caller Choice)) (key : Sds) (E : Int)
    (hfits : Run.Along (Pool.exec (machine hash deserializes)) Fits start ls)
    (htended : Tended key E (after hash deserializes ls).log) :
    ∃ u, (after hash deserializes ls).store = .ok u ∧ Dated key E u (after hash deserializes ls).frames :=
  (kept_after hfits).dated htended

/-- A region whose time is 0 has no entry, except one that was set just now. -/
theorem none_of_zero {ls : List (Label Caller Choice)}
    (hfits : Run.Along (Pool.exec (machine hash deserializes)) Fits start ls)
    (htended : Tended key 0 (after hash deserializes ls).log)
    (hnone : ∀ r, .client r (.expire key) ∉ (after hash deserializes ls).frames) :
    here (after hash deserializes ls).store key = none := by
  obtain ⟨u, hu, hdated⟩ := (kept_after hfits).dated htended
  rw [hu]
  cases hhere : here (.ok u) key with
  | none => rfl
  | some e =>
    obtain ⟨v, t⟩ := e
    have hdated := hdated v t hhere
    cases t with
    | none =>
      obtain ⟨r, hr⟩ := hdated
      exact absurd hr (hnone r)
    | some t => exact absurd hdated.1 (Int.lt_irrefl 0)

/-- A method that is stopped between SET and EXPIRE, and one that is not. -/
def stoppedPut : List (Label Caller Choice) :=
  [.spawn (.client (RedisCache ['c', ':'] 10 DEFAULT_COUNT) (.set ['c', ':', 'a'] ['1'])),
    .spawn (.client (RedisCache ['c', ':'] 10 DEFAULT_COUNT) (.set ['c', ':', 'b'] ['2'])),
    .run 0 ⟨⟨1, true⟩, 0, .tryResizeHashTables⟩, .stop 0, .run 1 ⟨⟨2, true⟩, 0, .tryResizeHashTables⟩,
    .run 1 ⟨⟨3, true⟩, 0, .tryResizeHashTables⟩]

theorem puts_expire_stopped :
    ∃ u, (after byLength readsAll stoppedPut).store = .ok u ∧
      Dated ['c', ':', 'a'] 10 u (after byLength readsAll stoppedPut).frames :=
  puts_expire stoppedPut ['c', ':', 'a'] 10 (by decide +kernel) (by decide +kernel)

/-- The first key stays for good. -/
example : here (after byLength readsAll stoppedPut).store ['c', ':', 'a'] = some (['1'], none) ∧
    here (after byLength readsAll stoppedPut).store ['c', ':', 'b'] = some (['2'], some 10003) := by
  decide +kernel

end ShiroRedis
