/-
A region keeps to itself: what the server has at a key that is not of the
region is what the commands of all the others lead to (`region_apart`). For the
caches of one manager it is enough that their names have no colon and no
character that a pattern reads otherwise (`getCache_apart`).
-/
import CfsShop.ShiroRedis.Clear

namespace ShiroRedis

open Redis

variable {hash : Sds → BitVec 64} {deserializes : Sds → Bool}

/-! ## Keys of a region -/

/-- The keys its methods are called with, and those that `clear` is told of. -/
def Region.Owns (r : Region) (key : Sds) : Prop := r.keyPrefix <+: key ∨ r.Matches key

theorem Region.owns_iff {r : Region} (h : Plain r.keyPrefix) {key : Sds} : r.Owns key ↔ r.keyPrefix <+: key := by
  rw [Owns, matches_iff h, or_self]

/-- Two names without a colon that are followed by one. -/
theorem eq_of_colon {name name' : Sds} (h : ':' ∉ name) (h' : ':' ∉ name') {key : Sds}
    (hkey : name ++ [':'] <+: key) (hkey' : name' ++ [':'] <+: key) : name = name' := by
  have htake : ∀ {name : Sds}, ':' ∉ name → name ++ [':'] <+: key → key.takeWhile (· ≠ ':') = name := by
    intro name hno hprefix
    obtain ⟨rest, rfl⟩ := hprefix
    rw [List.append_assoc, List.takeWhile_append_of_pos]
    · simp
    · intro c hc
      simp only [ne_eq, decide_not, Bool.not_eq_eq_eq_not, Bool.not_true, decide_eq_false_iff_not]
      rintro rfl
      exact hno hc
  rw [← htake h hkey, ← htake h' hkey']

/-- No key is of two caches. -/
theorem getCache_apart {m : RedisCacheManager} {name name' : Sds} (hm : Plain m.keyPrefix) (hname : Plain name)
    (hcolon : ':' ∉ name) (hcolon' : ':' ∉ name') (hne : name ≠ name') {key : Sds}
    (hkey : (m.getCache name').keyPrefix <+: key) : ¬ (m.getCache name).Owns key := by
  have hplain : Plain (m.getCache name).keyPrefix := by
    intro x hx
    simp only [RedisCacheManager.getCache, RedisCache, List.mem_append, List.mem_singleton] at hx
    rcases hx with (hx | hx) | rfl
    · exact hm x hx
    · exact hname x hx
    · decide
  rw [Region.owns_iff hplain]
  intro hprefix
  simp only [RedisCacheManager.getCache, RedisCache, List.append_assoc] at hkey hprefix
  obtain ⟨rest, rfl⟩ := hprefix
  rw [List.append_assoc, List.prefix_append_right_inj] at hkey
  exact hne (eq_of_colon hcolon hcolon' (List.prefix_append _ rest) hkey)

/-! ## Commands of a region -/

/-- The keys a method may be about. -/
def Frame.keys : Frame → List Sds
  | .get key | .set key _ | .expire key | .remove key | .del key _ => [key]
  | .scan _ _ keys | .clear keys | .values keys _ => keys
  | .size | .returned _ | .threw => []

theorem Frame.keys_of_touches {r : Region} {i : Nat} {f : Frame} {c : Command} {key : Sds}
    (hsends : f.sends r i = some c) (h : c.touches key = true) : key ∈ f.keys := by
  cases f with
  | set k v =>
    obtain rfl := Option.some.inj hsends
    exact List.mem_singleton.2 (of_decide_eq_true h).symm
  | expire k =>
    obtain rfl := Option.some.inj hsends
    exact List.mem_singleton.2 (of_decide_eq_true h).symm
  | del k previous =>
    obtain rfl := Option.some.inj hsends
    exact of_decide_eq_true h
  | clear keys =>
    obtain ⟨k, hk, rfl⟩ := Option.map_eq_some_iff.1 hsends
    obtain rfl := List.mem_singleton.1 (of_decide_eq_true h)
    exact List.mem_of_getElem? hk
  | get _ | remove _ | size | scan _ _ _ =>
    obtain rfl := Option.some.inj hsends
    exact absurd h Bool.false_ne_true
  | values keys vs =>
    obtain ⟨k, -, rfl⟩ := Option.map_eq_some_iff.1 hsends
    exact absurd h Bool.false_ne_true
  | returned _ | threw => exact absurd hsends.symm (Option.some_ne_none _)

theorem Frame.keys_nextClear {keys : List Sds} : (nextClear keys).keys ⊆ keys := by
  rw [nextClear]
  split
  · exact List.nil_subset _
  · exact List.Subset.refl _

theorem Frame.keys_nextValues {keys vs : List Sds} : (nextValues keys vs).keys ⊆ keys := by
  rw [nextValues]
  split
  · exact List.nil_subset _
  · exact List.Subset.refl _

theorem Frame.keys_scanned {keys : List Sds} (purpose : Purpose) : (scanned keys purpose).keys ⊆ keys := by
  cases purpose with
  | clear => exact keys_nextClear
  | keys => exact List.nil_subset _
  | values => exact keys_nextValues

/-- The keys that a SCAN of the method has returned. -/
def Frame.told : Frame → Reply → List Sds
  | .scan _ _ _, .scan _ page => page
  | _, _ => []

/-- A method is about the keys it was about, and those it has been told. -/
theorem Frame.keys_receives {r : Region} {i : Nat} (f : Frame) (reply : Reply) :
    (f.receives deserializes r i reply).keys ⊆ f.keys ++ f.told reply := by
  have herase : ∀ {keys page : List Sds}, keys.eraseIdx i ⊆ keys ++ page :=
    fun hkey => List.mem_append_left _ (List.eraseIdx_subset hkey)
  cases f with
  | scan purpose cursor keys =>
    cases reply with
    | scan next page =>
      rw [receives]
      split
      · exact List.Subset.refl _
      · exact keys_scanned purpose
    | _ => exact List.nil_subset _
  | clear keys =>
    cases reply with
    | integer n => exact List.Subset.trans keys_nextClear herase
    | _ => exact List.nil_subset _
  | values keys vs =>
    cases reply with
    | nil | bulk v => exact List.Subset.trans keys_nextValues herase
    | _ => exact List.nil_subset _
  | set key v =>
    cases reply with
    | ok =>
      rw [receives]
      split
      · exact List.subset_append_left _ _
      · exact List.nil_subset _
    | _ => exact List.nil_subset _
  | get key =>
    cases reply with
    | bulk v =>
      rw [receives]
      split
      · exact List.nil_subset _
      · exact List.nil_subset _
    | _ => exact List.nil_subset _
  | remove key =>
    cases reply with
    | bulk v =>
      rw [receives]
      split
      · exact List.subset_append_left _ _
      · exact List.nil_subset _
    | nil => exact List.subset_append_left _ _
    | _ => exact List.nil_subset _
  | expire _ | del _ _ | size | returned _ | threw => cases reply <;> exact List.nil_subset _

/-! ## Runs -/

/-- A caller of which all keys are those of its region. -/
def Caller.Tidy : Caller → Prop
  | .others => True
  | .client r f => ∀ key ∈ f.keys, r.Owns key

theorem Caller.tidy_of_allowed {c : Caller} (h : c.allowed = true) : c.Tidy := by
  cases c with
  | others => trivial
  | client r f =>
    simp only [allowed, Bool.and_eq_true] at h
    obtain ⟨⟨hbegins, -⟩, -⟩ := h
    have hone : ∀ {k : Sds}, r.keyPrefix.isPrefixOf k = true → ∀ key ∈ [k], r.Owns key := by
      intro k hk key hkey
      rw [List.mem_singleton.1 hkey]
      exact .inl (List.isPrefixOf_iff_prefix.1 hk)
    cases f with
    | get k | set k _ | remove k => exact hone hbegins
    | del k previous =>
      cases previous with
      | none => exact hone hbegins
      | some v => exact Bool.noConfusion hbegins
    | scan purpose cursor keys =>
      simp only [Frame.begins, Bool.and_eq_true, List.isEmpty_iff] at hbegins
      rw [Tidy, Frame.keys, hbegins.2]
      exact fun _ hkey => absurd hkey List.not_mem_nil
    | _ => first | exact Bool.noConfusion hbegins | exact fun _ hkey => absurd hkey List.not_mem_nil

theorem Caller.owns_of_touches {x : Choice} {r : Region} {c : Caller} {cmd : Command} {key : Sds} (htidy : c.Tidy)
    (hregion : c.region = some r) (hjob : c.job x = some (.command cmd)) (h : cmd.touches key = true) :
    r.Owns key := by
  cases c with
  | others => exact absurd hregion.symm (Option.some_ne_none r)
  | client r' f =>
    obtain rfl := Option.some.inj hregion
    have hsends := Caller.sends_of_job hjob
    exact htidy key (Frame.keys_of_touches hsends h)

theorem Caller.tidy_receives {x : Choice} {c : Caller} {cmd : Command} {ks : Keyspace} {now : Int} {reply : Reply}
    (htidy : c.Tidy) (hjob : c.job x = some (.command cmd)) (hanswer : ks.Answers now cmd reply) :
    (c.receives deserializes x.index (some reply)).Tidy := by
  cases c with
  | others => trivial
  | client r f =>
    intro key hkey
    rcases List.mem_append.1 (Frame.keys_receives f reply hkey) with hmem | htold
    · exact htidy key hmem
    · have hsends := Caller.sends_of_job hjob
      cases f with
      | scan purpose cursor keys =>
        obtain rfl := Option.some.inj hsends
        cases reply with
        | scan next page => exact .inr (scans_of_answer hanswer htold).2
        | _ => exact absurd htold List.not_mem_nil
      | _ => exact absurd htold List.not_mem_nil

/-- The history without a region's commands. -/
def without (r : Region) (log : List Sent) : History := (log.filter (·.1 ≠ some r)).map (·.2)

/-- The server is up, and a key that is not of the region has what the commands of the others lead
to. -/
def Unaffected (hash : Sds → BitVec 64) (r : Region) (s : Except Abort Up) (log : List Sent) : Prop :=
  ∃ u, s = .ok u ∧ (∃ s, Follows hash u s) ∧ ∀ key, ¬ r.Owns key → ∀ now, u.clock ≤ now →
    (keyspace u.history).left now key = (keyspace (without r log)).left now key

theorem unaffected_step {x : Choice} {u : Up} {r : Region} {log es : List Sent} {c c' : Caller}
    {s' : Except Abort Up} (h : Unaffected hash r (.ok u) log)
    (hfits : ∀ j ∈ c.job x, serveFits (.ok u) (x.moment, j)) (htidy : c.Tidy)
    (hstep : step hash deserializes x (.ok u) c = some (s', c', es)) :
    Unaffected hash r s' (log ++ es) ∧ c'.Tidy := by
  obtain ⟨_, ⟨⟩, hfollows, hsame⟩ := h
  obtain ⟨u', rfl, hfollows', hle, hclock, hserved⟩ := step_spec hfollows hfits hstep
  cases hserved with
  | job hhist =>
    refine ⟨⟨u', rfl, hfollows', ?_⟩, trivial⟩
    intro key hkey now hnow
    rw [hhist, List.append_nil]
    exact hsame key hkey now (by omega)
  | @command _ cmd reply hjob hserve hhist hanswer =>
    refine ⟨⟨u', rfl, hfollows', ?_⟩, ?_⟩
    · intro key hkey now hnow
      rw [hclock] at hnow
      have hbefore : (keyspace u.history).left x.moment.mstime key =
          (keyspace (without r log)).left x.moment.mstime key := hsame key hkey _ hle
      rw [hhist, keyspace_concat]
      by_cases hregion : c.region = some r
      · -- The region's own commands are not about the key.
        have htouch : cmd.touches key = false := by
          rw [← Bool.not_eq_true]
          exact fun h => hkey (Caller.owns_of_touches htidy hregion hjob h)
        have hwithout : without r (log ++ [(c.region, x.moment.mstime, cmd, reply)]) = without r log := by
          simp [without, hregion]
        rw [hwithout]
        calc _ = ((keyspace u.history).left x.moment.mstime).left now key :=
              Keyspace.left_congr (Keyspace.step_of_not_touches htouch)
          _ = (keyspace u.history).left now key := by rw [left_left _ hnow]
          _ = _ := hsame key hkey now (Int.le_trans hle hnow)
      · have hwithout : without r (log ++ [(c.region, x.moment.mstime, cmd, reply)]) =
            without r log ++ [(x.moment.mstime, cmd, reply)] := by
          simp [without, hregion]
        rw [hwithout, keyspace_concat]
        exact Keyspace.left_congr (Keyspace.step_congr hbefore)
    · exact Caller.tidy_receives htidy hjob hanswer

/-- **A region keeps to itself.** -/
theorem region_apart (ls : List (Label Caller Choice)) (r : Region)
    (hfits : Run.Along (Pool.exec (machine hash deserializes)) Fits start ls) :
    ∃ u, (after hash deserializes ls).store = .ok u ∧ ∀ key, ¬ r.Owns key →
      (keyspace u.history).left u.clock key =
        (keyspace (without r (after hash deserializes ls).log)).left u.clock key := by
  have hstart : Pool.Each (Unaffected hash r) (fun _ _ c => c.Tidy) start :=
    ⟨⟨Up.start, rfl, ⟨_, Follows.init hash⟩, fun _ _ _ _ => rfl⟩, fun _ ht => absurd ht List.not_mem_nil⟩
  have hend : Pool.Each (Unaffected hash r) (fun _ _ c => c.Tidy) (after hash deserializes ls) := by
    refine (hfits.always (fun p l h hfits => ?_) hstart).last
    refine (Pool.exec_move (machine hash deserializes) p l).each_guarded hfits
      (fun c _ hc => Caller.tidy_of_allowed hc) ?_ h
    intro x c s' c' es hfit hw htidy hstep
    obtain ⟨u, hu, -⟩ := id hw
    rw [hu] at hw hfit hstep
    obtain ⟨hw', htidy'⟩ := unaffected_step hw hfit htidy hstep
    exact ⟨hw', htidy', fun _ h => h⟩
  obtain ⟨u, hu, -, hsame⟩ := hend.1
  exact ⟨u, hu, fun key hkey => hsame key hkey u.clock (Int.le_refl _)⟩

theorem region_apart_clear :
    ∃ u, (after byLength readsAll (beforeScan .clear ++ duringClear)).store = .ok u ∧ ∀ key, ¬ cRegion.Owns key →
      (keyspace u.history).left u.clock key =
        (keyspace (without cRegion (after byLength readsAll (beforeScan .clear ++ duringClear)).log)).left
          u.clock key :=
  region_apart _ _ (by decide +kernel)

end ShiroRedis
