import ConfluentKafka.CacheTransparency
import ConfluentKafka.Invalidation

/-!
# Deleted versions in the caches

Any number of calls of one client in flight, in any interleaving that the mutexes allow. A delete
clears some of the caches and then sends its request. `CleanDelete` is the condition on a run
under which no call is answered from a cache with a version that was deleted after it was cached:
what the delete does not clear has no such version, and nothing is stored behind its back.
-/

namespace ConfluentKafka

variable {ρ ε : Type}

abbrev ClientThread (ε : Type) := Thread ClientOp (ClientOp.Ans ε) ε ClientReply ClientCall ClientEvent

abbrev ClientPool (ρ ε : Type) := Pool ClientOp (ClientOp.Ans ε) ε ClientReply ClientCall ClientEvent
    (ClientWorld ρ)

abbrev ClientLabel (ρ : Type) := PoolLabel ClientCall Unit (ClientEnv ρ)

/-! ## Deletions and what they hit -/

structure Deletion where
  subject : String
  versions : List Int
  time : Nat

/-- The keys under which the versions of a subject are cached, deleted versions not asked for. -/
def CacheKey.isOf (subject : String) : CacheKey → Bool
  | idToSchemaInfo _ _ => false
  | guidToSchemaInfo _ => false
  | infoToSchema subject' _ => subject' = subject
  | latestToSchema subject' => subject' = encodeURIComponent subject
  | schemaToVersion subject' _ _ => subject' = subject
  | versionToSchema subject' _ deleted => subject' = subject ∧ deleted = some false
  | metadataToSchema subject' _ _ => subject' = subject

def hitsVersions (subject : String) (versions : List Int) (key : CacheKey) (entry : CacheEntry) : Bool :=
  key.isOf subject ∧ ∃ v ∈ versions, entry.value.version? = some v

def deletions : Invalidation (CacheKey × CacheEntry) Deletion where
  answeredAt x := x.2.time
  deletedAt d := d.time
  hits d x := hitsVersions d.subject d.versions x.1 x.2 = true

namespace ClientCall

def deletes? : ClientCall → Option String
  | deleteSubject subject _ => some subject
  | deleteSubjectVersion subject _ _ => some subject
  | _ => none

def cachedRequest? : ClientCall → Option CachedRequest
  | read call => some call.cachedRequest
  | registerFullResponse subject schema normalize =>
    some (ConfluentKafka.registerFullResponse subject schema normalize)
  | _ => none

def clears : ClientCall → CacheKey → CacheEntry → Bool
  | deleteSubject subject _, key, _ =>
    key.isOf subject ∧ key.cache ∈ [.infoToSchema, .schemaToVersion, .versionToSchema]
  | deleteSubjectVersion subject version _, key, entry =>
    key.isOf subject ∧ key.cache = .schemaToVersion ∧ entry.value.version? = some version
  | _, _, _ => false

end ClientCall

def Pending (tr : List ClientEvent) : Bool := tr.all fun e => e matches .other | .cleared _

def Clearing (t : ClientThread ε) (key : CacheKey) (entry : CacheEntry) : Bool :=
  Pending t.trace ∧ .cleared key.cache ∈ t.trace ∧ t.arg.clears key entry

def unstored? (t : ClientThread ε) : Option (CacheKey × CacheEntry) :=
  match t.arg.cachedRequest?, t.trace.getLast? with
  | some r, some (.answered data time) => some (r.store, ⟨r.value data, time⟩)
  | _, _ => none

/-! ## Runs -/

namespace Registry

variable (reg : Registry ρ ε)

def nextOp? (s : ClientPool ρ ε) (i : Nat) : Option (ClientCall × ClientOp) :=
  match s.threads[i]? with
  | some ⟨c, .call op _, _⟩ => some (c, op)
  | _ => none

def Ready (s : ClientPool ρ ε) : ClientLabel ρ → Bool
  | .step i _ =>
    match nextOp? s i with
    | some (_, .lock mutex) => mutex ∉ s.world.locked
    | _ => true
  | _ => true

def deletedBy (op : ClientOp) (r : ρ) : List Int :=
  match op with
  | .sendDeleteSubject request =>
    match (reg.deleteSubject request r).1 with
    | .ok versions => versions
    | .error _ => []
  | .sendDeleteVersion request =>
    match (reg.deleteVersion request r).1 with
    | .ok version => [version]
    | .error _ => []
  | _ => []

/-- What is stored has not been cleared by a delete that is under way, and a delete finds none of
its versions in what it has not cleared or in an answer not stored yet. -/
def CleanOp (s : ClientPool ρ ε) (c : ClientCall) (op : ClientOp) : Bool :=
  match op, c.deletes? with
  | .set key entry, _ => s.threads.all fun t => !Clearing t key entry
  | op, some subject =>
    let hits := hitsVersions subject (reg.deletedBy op s.world.registry)
    (s.world.caches.entries.all fun x => hits x.1 x.2 → c.clears x.1 x.2) &&
      s.threads.all fun t => (unstored? t).all fun x => !hits x.1 x.2
  | _, none => true

def CleanDelete (s : ClientPool ρ ε) (l : ClientLabel ρ) : Bool :=
  Ready s l &&
    match l with
    | .step i _ => (nextOp? s i).all fun p => reg.CleanOp s p.1 p.2
    | _ => true

end Registry

/-! ## What the calls do -/

def Cleared (c : ClientCall) (tr : List ClientEvent) : Prop :=
  ∀ key entry, c.clears key entry = true → .cleared key.cache ∈ tr

/-- What a call establishes before its operations, whatever the others do. -/
def callContract (ρ : Type) (c : ClientCall) : Contract ClientOp (ClientWorld ρ) ClientEvent where
  rely _ _ := True
  refl _ := trivial
  trans _ _ := trivial
  pre op _ tr :=
    match op with
    | .set key entry => ∃ r data, c.cachedRequest? = some r ∧ key = r.store ∧ entry.value = r.value data ∧
        tr.getLast? = some (.answered data entry.time)
    | .deleteSubjectKeys _ subject => ∃ permanent, c = .deleteSubject subject permanent ∧ Pending tr
    | .deleteVersionKeys subject version =>
      ∃ permanent, c = .deleteSubjectVersion subject version permanent ∧ Pending tr
    | .sendDeleteSubject _ => Pending tr ∧ Cleared c tr ∧ c.deletes?.isSome
    | .sendDeleteVersion _ => Pending tr ∧ Cleared c tr ∧ c.deletes?.isSome
    | .send _ => c.deletes? = none
    | _ => True

def Resolves (r : Except ε ClientReply) (_ : ClientWorld ρ) (tr : List ClientEvent) : Prop :=
  ∀ versions time, r = .ok (.deleted versions time) → .deleted versions time ∈ tr

section Programs

variable (reg : Registry ρ ε)

theorem ensures_ask {c : ClientCall} {r : CachedRequest} (hc : c.cachedRequest? = some r) (hd : c.deletes? = none)
    (w : ClientWorld ρ) (tr : List ClientEvent) :
    Ensures reg.client.toMachine (callContract ρ c) Resolves (ClientProg.ask r) w tr := by
  unfold ClientProg.ask ClientProg.call
  rw [ensures_lift_bind]
  refine fun w₁ _ => ⟨hd, fun _ => ?_⟩
  cases h : (reg.answer r.request w₁.registry).1 with
  | error e =>
    have hans : (reg.client.exec () (.send r.request) w₁).1 = .error e := by
      simp [Registry.client, Registry.exec, ClientWorld.exchange, Except.map, h]
    rw [hans]
    intro w₂ _
    refine ⟨trivial, fun _ => ?_⟩
    rintro w₃ - versions time hr
    cases hr
  | ok data =>
    have hans : (reg.client.exec () (.send r.request) w₁).1 = .ok ⟨data, w₁.clock⟩ := by
      simp [Registry.client, Registry.exec, ClientWorld.exchange, Except.map, h]
    have hev : reg.client.event () (.send r.request) w₁ = .answered data w₁.clock := by
      simp [Registry.client, Registry.event, h]
    rw [hans, hev]
    rintro w₂ -
    refine ⟨⟨r, data, hc, rfl, rfl, by simp⟩, fun _ => ?_⟩
    rintro w₃ -
    refine ⟨trivial, fun _ => ?_⟩
    rintro w₄ - versions time hr
    cases hr

theorem ensures_cachedRequest {c : ClientCall} {r : CachedRequest} (hc : c.cachedRequest? = some r)
    (hd : c.deletes? = none) (w : ClientWorld ρ) :
    Ensures reg.client.toMachine (callContract ρ c) Resolves (ClientProg.cachedRequest r) w [] := by
  rintro w₁ -
  refine ⟨trivial, fun _ => ?_⟩
  rintro w₂ -
  refine ⟨trivial, fun _ => ?_⟩
  have hans : (reg.client.exec () (.get r.lookup) w₂).1 = w₂.caches.get? r.lookup := rfl
  rw [hans]
  cases w₂.caches.get? r.lookup with
  | none => exact ensures_ask reg hc hd _ _
  | some entry =>
    by_cases hu : r.usable entry.value
    · simp only [Prog.bind, hu, if_true]
      rintro w₃ -
      refine ⟨trivial, fun _ => ?_⟩
      rintro w₄ - versions time hr
      cases hr
    · simp only [Prog.bind, hu]
      exact ensures_ask reg hc hd _ _

theorem pending_append {tr tr' : List ClientEvent} : Pending (tr ++ tr') ↔ Pending tr ∧ Pending tr' := by
  simp [Pending, List.all_append]

theorem ensures_clearSubject {Q : Except ε ClientReply → ClientWorld ρ → List ClientEvent → Prop} {subject : String}
    {permanent : Bool} {mutex : ClientMutex} {cache : ClientCache} {f : Unit → ClientProg ε ClientReply}
    {w : ClientWorld ρ} {tr : List ClientEvent} (htr : Pending tr)
    (h : ∀ w', Ensures reg.client.toMachine (callContract ρ (.deleteSubject subject permanent)) Q (f ()) w'
      (tr ++ [.other, .cleared cache, .other])) :
    Ensures reg.client.toMachine (callContract ρ (.deleteSubject subject permanent)) Q
      (ClientProg.clearSubject mutex cache subject >>= f) w tr := by
  rintro w₁ -
  refine ⟨trivial, fun _ => ?_⟩
  rintro w₂ -
  refine ⟨⟨permanent, rfl, pending_append.mpr ⟨htr, rfl⟩⟩, fun _ => ?_⟩
  rintro w₃ -
  refine ⟨trivial, fun _ => ?_⟩
  have htrace : ∀ a b c : ClientEvent, tr ++ [a] ++ [b] ++ [c] = tr ++ [a, b, c] := by simp
  rw [htrace]
  exact h _

theorem ensures_deleteSubject (subject : String) (permanent : Bool) (w : ClientWorld ρ) :
    Ensures reg.client.toMachine (callContract ρ (.deleteSubject subject permanent)) Resolves
      (ClientProg.deleteSubject subject permanent) w [] := by
  unfold ClientProg.deleteSubject
  refine ensures_clearSubject reg rfl fun w₁ => ?_
  refine ensures_clearSubject reg rfl fun w₂ => ?_
  refine ensures_clearSubject reg rfl fun w₃ => ?_
  refine ensures_clearSubject reg rfl fun w₄ => ?_
  rintro w₅ -
  refine ⟨⟨rfl, ?_, rfl⟩, fun _ => ?_⟩
  · intro key entry hclears
    have hmem : key.cache ∈ [ClientCache.infoToSchema, .schemaToVersion, .versionToSchema] := by
      simp only [ClientCall.clears, decide_eq_true_eq] at hclears
      exact hclears.2
    simp only [List.mem_cons, List.not_mem_nil, or_false] at hmem
    obtain h | h | h := hmem <;> simp [h]
  · generalize hreq : Request.mk .DELETE ("/subjects/" ++ encodeURIComponent subject ++ "?permanent=" ++
      toString permanent) none = request
    cases h : (reg.deleteSubject request w₅.registry).1 with
    | error e =>
      have hans : (reg.client.exec () (.sendDeleteSubject request) w₅).1 = .error e := by
        simp [Registry.client, Registry.exec, ClientWorld.exchange, Except.map, h]
      rw [hans]
      rintro w₆ - versions time hr
      cases hr
    | ok versions =>
      have hans : (reg.client.exec () (.sendDeleteSubject request) w₅).1 = .ok ⟨versions, w₅.clock⟩ := by
        simp [Registry.client, Registry.exec, ClientWorld.exchange, Except.map, h]
      have hev : reg.client.event () (.sendDeleteSubject request) w₅ = .deleted versions w₅.clock := by
        simp [Registry.client, Registry.event, h]
      rw [hans, hev]
      rintro w₆ - versions' time hr
      simp only [Except.ok.injEq, ClientReply.deleted.injEq] at hr
      obtain ⟨rfl, rfl⟩ := hr
      exact List.mem_append_right _ (List.mem_singleton_self _)

theorem ensures_deleteSubjectVersion (subject : String) (version : Int) (permanent : Bool) (w : ClientWorld ρ) :
    Ensures reg.client.toMachine (callContract ρ (.deleteSubjectVersion subject version permanent)) Resolves
      (ClientProg.deleteSubjectVersion subject version permanent) w [] := by
  rintro w₁ -
  refine ⟨trivial, fun _ => ?_⟩
  rintro w₂ -
  refine ⟨⟨permanent, rfl, rfl⟩, fun _ => ?_⟩
  rintro w₃ -
  refine ⟨trivial, fun _ => ?_⟩
  rintro w₄ -
  refine ⟨⟨rfl, ?_, rfl⟩, fun _ => ?_⟩
  · intro key entry hclears
    have hcache : key.cache = .schemaToVersion := by
      simp only [ClientCall.clears, decide_eq_true_eq] at hclears
      exact hclears.2.1
    simp [hcache, Registry.client, Registry.event]
  · generalize hreq : Request.mk .DELETE ("/subjects/" ++ encodeURIComponent subject ++ "/versions/" ++
      toString version ++ "?permanent=" ++ toString permanent) none = request
    cases h : (reg.deleteVersion request w₄.registry).1 with
    | error e =>
      have hans : (reg.client.exec () (.sendDeleteVersion request) w₄).1 = .error e := by
        simp [Registry.client, Registry.exec, ClientWorld.exchange, Except.map, h]
      rw [hans]
      rintro w₅ -
      refine ⟨trivial, fun _ => ?_⟩
      rintro w₆ - versions time hr
      cases hr
    | ok v =>
      have hans : (reg.client.exec () (.sendDeleteVersion request) w₄).1 = .ok ⟨v, w₄.clock⟩ := by
        simp [Registry.client, Registry.exec, ClientWorld.exchange, Except.map, h]
      have hev : reg.client.event () (.sendDeleteVersion request) w₄ = .deleted [v] w₄.clock := by
        simp [Registry.client, Registry.event, h]
      rw [hans, hev]
      rintro w₅ -
      refine ⟨trivial, fun _ => ?_⟩
      rintro w₆ - versions' time hr
      simp only [Except.ok.injEq, ClientReply.deleted.injEq] at hr
      obtain ⟨rfl, rfl⟩ := hr
      simp

theorem ensures_start (c : ClientCall) (w : ClientWorld ρ) :
    Ensures reg.client.toMachine (callContract ρ c) Resolves (reg.client.start c) w [] := by
  cases c with
  | read call => exact ensures_cachedRequest reg rfl rfl w
  | registerFullResponse subject schema normalize => exact ensures_cachedRequest reg rfl rfl w
  | deleteSubject subject permanent => exact ensures_deleteSubject reg subject permanent w
  | deleteSubjectVersion subject version permanent =>
    exact ensures_deleteSubjectVersion reg subject version permanent w

end Programs

/-! ## The view of a pool -/

def ClientPool.view (s : ClientPool ρ ε) : Invalidation.View (CacheKey × CacheEntry) Deletion where
  deleted := { d | ∃ t ∈ s.threads, t.arg.deletes? = some d.subject ∧ .deleted d.versions d.time ∈ t.trace }
  cached := { x | s.world.caches.get? x.1 = some x.2 }
  unstored := { x | ∃ t ∈ s.threads, unstored? t = some x }
  cleared := { x | ∃ t ∈ s.threads, Clearing t x.1 x.2 = true }
  clock := s.world.clock

open Invalidation (Adds)

section Views

variable {reg : Registry ρ ε} {s : ClientPool ρ ε}

theorem clearing_snoc {c : ClientCall} {p q : ClientProg ε ClientReply} {tr : List ClientEvent} {ev : ClientEvent}
    {key : CacheKey} {entry : CacheEntry} (h : Clearing ⟨c, p, tr ++ [ev]⟩ key entry = true) :
    Clearing ⟨c, q, tr⟩ key entry = true ∨ (ev = .cleared key.cache ∧ c.clears key entry = true) := by
  simp only [Clearing, decide_eq_true_eq, pending_append, List.mem_append, List.mem_singleton] at h ⊢
  obtain ⟨⟨htr, -⟩, hmem | hev, hc⟩ := h
  · exact .inl ⟨htr, hmem, hc⟩
  · exact .inr ⟨hev.symm, hc⟩

theorem adds_step {i : Nat} {c : ClientCall} {p q : ClientProg ε ClientReply} {tr : List ClientEvent}
    {ev : ClientEvent}
    {w' : ClientWorld ρ} (hi : s.threads[i]? = some ⟨c, q, tr⟩) {A : Set (CacheKey × CacheEntry)}
    (hcached : ∀ key entry, w'.caches.get? key = some entry →
      s.world.caches.get? key = some entry ∨ (key, entry) ∈ A) (hclock : s.world.clock ≤ w'.clock) :
    Adds (ClientPool.view s) (ClientPool.view ⟨w', s.threads.set i ⟨c, p, tr ++ [ev]⟩⟩)
      { d | c.deletes? = some d.subject ∧ ev = .deleted d.versions d.time } A
      { x | unstored? (⟨c, p, tr ++ [ev]⟩ : ClientThread ε) = some x }
      { x | ev = .cleared x.1.cache ∧ c.clears x.1 x.2 = true } := by
  have hmem := List.mem_of_getElem? hi
  refine ⟨?_, fun x hx => hcached x.1 x.2 hx, ?_, ?_, hclock⟩
  · rintro d ⟨t, ht, hsub, hdel⟩
    obtain ht | rfl := List.mem_or_eq_of_mem_set ht
    · exact .inl ⟨t, ht, hsub, hdel⟩
    · obtain hdel | hdel := List.mem_append.mp hdel
      · exact .inl ⟨_, hmem, hsub, hdel⟩
      · exact .inr ⟨hsub, (List.mem_singleton.mp hdel).symm⟩
  · rintro x ⟨t, ht, hx⟩
    obtain ht | rfl := List.mem_or_eq_of_mem_set ht
    · exact .inl ⟨t, ht, hx⟩
    · exact .inr hx
  · rintro x ⟨t, ht, hx⟩
    obtain ht | rfl := List.mem_or_eq_of_mem_set ht
    · exact .inl ⟨t, ht, hx⟩
    · obtain hx | hx := clearing_snoc (q := q) hx
      · exact .inl ⟨_, hmem, hx⟩
      · exact .inr hx

theorem unstored?_snoc_of_ne {c : ClientCall} {p : ClientProg ε ClientReply} {tr : List ClientEvent}
    {ev : ClientEvent}
    (h : ∀ data time, ev ≠ .answered data time) : unstored? (⟨c, p, tr ++ [ev]⟩ : ClientThread ε) = none := by
  unfold unstored?
  split
  · next data time _ hlast =>
    simp only [List.getLast?_append, List.getLast?_singleton, Option.some_or, Option.some.injEq] at hlast
    exact absurd hlast (h data time)
  · rfl

/-- A step without a request and without a change to the caches. -/
theorem adds_quiet {i : Nat} {c : ClientCall} {p q : ClientProg ε ClientReply} {tr : List ClientEvent}
    {ev : ClientEvent} {w' : ClientWorld ρ} (hi : s.threads[i]? = some ⟨c, q, tr⟩)
    (hev : ev = .other ∨ ev = .refused)
    (hcached : w'.caches = s.world.caches) (hclock : s.world.clock ≤ w'.clock) :
    Adds (ClientPool.view s) (ClientPool.view ⟨w', s.threads.set i ⟨c, p, tr ++ [ev]⟩⟩) ∅ ∅ ∅ ∅ := by
  refine (adds_step hi (A := ∅) (fun key entry hget => .inl (hcached ▸ hget)) hclock).mono ?_ subset_rfl ?_ ?_
  · rintro d ⟨-, hd⟩
    obtain rfl | rfl := hev <;> cases hd
  · intro x hx
    rw [Set.mem_ofPred_eq, unstored?_snoc_of_ne (by obtain rfl | rfl := hev <;> simp)] at hx
    cases hx
  · rintro x ⟨hx, -⟩
    obtain rfl | rfl := hev <;> cases hx

theorem adds_spawn (c : ClientCall) (p : ClientProg ε ClientReply) :
    Adds (ClientPool.view s) (ClientPool.view { s with threads := s.threads ++ [⟨c, p, []⟩] }) ∅ ∅ ∅ ∅ := by
  have hold : ∀ {t : ClientThread ε}, t ∈ s.threads ++ [⟨c, p, []⟩] → t ∈ s.threads ∨ t = ⟨c, p, []⟩ := by
    intro t ht
    simpa using ht
  refine ⟨?_, fun x hx => .inl hx, ?_, ?_, le_rfl⟩
  · rintro d ⟨t, ht, hsub, hdel⟩
    obtain ht | rfl := hold ht
    · exact .inl ⟨t, ht, hsub, hdel⟩
    · cases hdel
  · rintro x ⟨t, ht, hx⟩
    obtain ht | rfl := hold ht
    · exact .inl ⟨t, ht, hx⟩
    · simp [unstored?] at hx
  · rintro x ⟨t, ht, hx⟩
    obtain ht | rfl := hold ht
    · exact .inl ⟨t, ht, hx⟩
    · simp [Clearing] at hx

theorem clock_env (e : ClientEnv ρ) (w : ClientWorld ρ) : (Registry.env e w).clock = w.clock := by
  cases e with
  | evict key => rfl
  | clearLatestCaches => rfl
  | clearCaches => rfl
  | registry r => rfl
  | task n =>
    simp only [Registry.env]
    split
    · rfl
    · next task _ =>
      split
      · rfl
      · cases task with
        | delete mutex key => rfl
        | deleteInfo subject schema =>
          simp only [ClientWorld.runTask]
          split <;> rfl

theorem adds_env (e : ClientEnv ρ) :
    Adds (ClientPool.view s) (ClientPool.view { s with world := Registry.env e s.world }) ∅ ∅ ∅ ∅ where
  deleted _ hd := .inl hd
  cached _ hx := .inl (Registry.get?_env hx)
  unstored _ hx := .inl hx
  cleared _ hx := .inl hx
  clock := (clock_env e s.world).ge

/-! ## One step -/

variable {i : Nat} {c : ClientCall} {tr : List ClientEvent} {p q : ClientProg ε ClientReply}

theorem step_set {key : CacheKey} {entry : CacheEntry} {w' : ClientWorld ρ} (hi : s.threads[i]? = some ⟨c, q, tr⟩)
    (hpre : (callContract ρ c).pre (.set key entry) s.world tr)
    (hclean : ∀ t ∈ s.threads, Clearing t key entry = false)
    (hcaches : w'.caches = s.world.caches.set key entry) (hclock : w'.clock = s.world.clock) :
    deletions.Step (ClientPool.view s) (ClientPool.view ⟨w', s.threads.set i ⟨c, p, tr ++ [.other]⟩⟩) := by
  obtain ⟨r, data, hr, rfl, hvalue, hlast⟩ := hpre
  refine .store (r.store, entry) ((adds_step hi (A := {(r.store, entry)}) ?_ hclock.ge).mono ?_ subset_rfl ?_ ?_) ?_
    ?_
  · intro key' entry' hget
    rw [hcaches, JsMap.get?_set] at hget
    split at hget
    · next hkey =>
      obtain rfl := Option.some.inj hget
      exact .inr (by rw [hkey]; rfl)
    · exact .inl hget
  · rintro d ⟨-, hd⟩
    cases hd
  · intro x hx
    rw [Set.mem_ofPred_eq, unstored?_snoc_of_ne (by simp)] at hx
    cases hx
  · rintro x ⟨hx, -⟩
    cases hx
  · refine ⟨_, List.mem_of_getElem? hi, ?_⟩
    simp only [unstored?, hr, hlast, ← hvalue]
  · rintro ⟨t, ht, hx⟩
    rw [hclean t ht] at hx
    cases hx

theorem step_clear {cache : ClientCache} {w' : ClientWorld ρ} (hi : s.threads[i]? = some ⟨c, q, tr⟩)
    (hcached : ∀ key entry, w'.caches.get? key = some entry →
      s.world.caches.get? key = some entry ∧ (key.cache = cache → c.clears key entry = false))
    (hclock : w'.clock = s.world.clock) :
    deletions.Step (ClientPool.view s) (ClientPool.view ⟨w', s.threads.set i ⟨c, p, tr ++ [.cleared cache]⟩⟩) := by
  refine .clear { x | x.1.cache = cache ∧ c.clears x.1 x.2 = true }
    ((adds_step hi (A := ∅) (fun key entry hget => .inl (hcached key entry hget).1) hclock.ge).mono ?_
      subset_rfl ?_ ?_) ?_
  · rintro d ⟨-, hd⟩
    cases hd
  · intro x hx
    rw [Set.mem_ofPred_eq, unstored?_snoc_of_ne (by simp)] at hx
    cases hx
  · rintro x ⟨hx, hc⟩
    exact ⟨(ClientEvent.cleared.inj hx).symm, hc⟩
  · rintro x hx ⟨hcache, hc⟩
    rw [(hcached x.1 x.2 hx).2 hcache] at hc
    cases hc

theorem step_answer {data : SchemaMetadata} {w' : ClientWorld ρ} (hi : s.threads[i]? = some ⟨c, q, tr⟩)
    (hcaches : w'.caches = s.world.caches) (hclock : w'.clock = s.world.clock + 1) :
    deletions.Step (ClientPool.view s)
      (ClientPool.view ⟨w', s.threads.set i ⟨c, p, tr ++ [.answered data s.world.clock]⟩⟩) := by
  have hlast : (tr ++ [ClientEvent.answered data s.world.clock]).getLast? = some
    (.answered data s.world.clock) := by simp
  have hcached : ∀ key entry, w'.caches.get? key = some entry →
      s.world.caches.get? key = some entry ∨ (key, entry) ∈ (∅ : Set (CacheKey × CacheEntry)) :=
    fun key entry hget => .inl (hcaches ▸ hget)
  cases hr : c.cachedRequest? with
  | none =>
    refine .skip ((adds_step hi hcached (Nat.le.intro hclock.symm)).mono ?_ subset_rfl ?_ ?_)
    · rintro d ⟨-, hd⟩
      cases hd
    · intro x hx
      simp [unstored?, hr] at hx
    · rintro x ⟨hx, -⟩
      cases hx
  | some r =>
    refine .answer (r.store, ⟨r.value data, s.world.clock⟩)
      ((adds_step hi hcached (Nat.le.intro hclock.symm)).mono ?_ subset_rfl ?_ ?_) rfl
    · rintro d ⟨-, hd⟩
      cases hd
    · intro x hx
      simp only [unstored?, hr, hlast, Set.mem_ofPred_eq, Option.some.injEq] at hx
      exact hx.symm
    · rintro x ⟨hx, -⟩
      cases hx

theorem step_delete {subject : String} {versions : List Int} {w' : ClientWorld ρ}
    (hi : s.threads[i]? = some ⟨c, q, tr⟩)
    (hc : c.deletes? = some subject) (hpending : Pending tr = true) (hcleared : Cleared c tr)
    (hentries : ∀ key entry, s.world.caches.get? key = some entry → hitsVersions subject versions key entry = true →
      c.clears key entry = true)
    (hunstored : ∀ t ∈ s.threads, ∀ x, unstored? t = some x → hitsVersions subject versions x.1 x.2 = false)
    (hcaches : w'.caches = s.world.caches) (hclock : w'.clock = s.world.clock + 1) :
    deletions.Step (ClientPool.view s)
      (ClientPool.view ⟨w', s.threads.set i ⟨c, p, tr ++ [.deleted versions s.world.clock]⟩⟩) := by
  refine .delete ⟨subject, versions, s.world.clock⟩
    ((adds_step hi (A := ∅) (fun key entry hget => .inl (hcaches ▸ hget)) (Nat.le.intro hclock.symm)).mono ?_
      subset_rfl
      ?_ ?_) rfl ?_ ?_ ?_
  · rintro ⟨subject', versions', time⟩ ⟨hsub, hd⟩
    obtain rfl := Option.some.inj (hc.symm.trans hsub)
    obtain ⟨rfl, rfl⟩ := ClientEvent.deleted.inj hd
    rfl
  · intro x hx
    rw [Set.mem_ofPred_eq, unstored?_snoc_of_ne (by simp)] at hx
    cases hx
  · rintro x ⟨hx, -⟩
    cases hx
  · show s.world.clock < w'.clock
    omega
  · rintro x ⟨t, ht, hx⟩ hhits
    exact Bool.false_ne_true ((hunstored t ht x hx).symm.trans hhits)
  · -- what the delete hits of the cache it has cleared
    intro x hx hhits
    have hclears := hentries x.1 x.2 hx hhits
    refine ⟨_, List.mem_of_getElem? hi, ?_⟩
    simp only [Clearing, decide_eq_true_eq]
    exact ⟨hpending, hcleared x.1 x.2 hclears, hclears⟩

theorem cleanOp_delete {op : ClientOp} {subject : String} (hclean : reg.CleanOp s c op = true)
    (hc : c.deletes? = some subject) (hop : ∀ key entry, op ≠ .set key entry) :
    (∀ key entry, s.world.caches.get? key = some entry →
      hitsVersions subject (reg.deletedBy op s.world.registry) key entry = true → c.clears key entry = true) ∧
    ∀ t ∈ s.threads, ∀ x, unstored? t = some x →
      hitsVersions subject (reg.deletedBy op s.world.registry) x.1 x.2 = false := by
  unfold Registry.CleanOp at hclean
  split at hclean
  · exact absurd rfl (hop _ _)
  · next subject' _ hc' =>
    obtain rfl := Option.some.inj (hc.symm.trans hc')
    simp only [Bool.and_eq_true, List.all_eq_true, Option.all_eq_true, decide_eq_true_eq,
      Bool.not_eq_true'] at hclean
    obtain ⟨hentries, hunstored⟩ := hclean
    exact ⟨fun key entry hget => hentries (key, entry) (JsMap.get?_eq_some.mp hget),
      fun t ht x hx => hunstored t ht x hx⟩
  · next hnone =>
    rw [hc] at hnone
    cases hnone

theorem subject?_of_clears {subject : String} {permanent : Bool} {key : CacheKey} {entry : CacheEntry}
    (h : (ClientCall.deleteSubject subject permanent).clears key entry = true) : key.subject? = some subject := by
  simp only [ClientCall.clears, decide_eq_true_eq] at h
  obtain ⟨hof, hcache⟩ := h
  cases key <;> simp_all [CacheKey.isOf, CacheKey.cache, CacheKey.subject?]

theorem isVersionKey_of_clears {subject : String} {version : Int} {permanent : Bool} {key : CacheKey}
    {entry : CacheEntry} (h : (ClientCall.deleteSubjectVersion subject version permanent).clears key entry = true) :
    ClientWorld.isVersionKey subject version key entry = true := by
  simp only [ClientCall.clears, decide_eq_true_eq] at h
  obtain ⟨hof, hcache, hversion⟩ := h
  cases key <;> simp_all [CacheKey.isOf, CacheKey.cache, CacheKey.subject?, ClientWorld.isVersionKey]

/-- An operation of a thread that meets its contract and the condition. -/
theorem step_op {op : ClientOp} {k : op.Ans ε → ClientProg ε ClientReply}
    (hi : s.threads[i]? = some ⟨c, .call op k, tr⟩)
    (hpre : (callContract ρ c).pre op s.world tr) (hclean : reg.CleanOp s c op = true) :
    deletions.Step (ClientPool.view s) (ClientPool.view
      ⟨(reg.exec op s.world).2, s.threads.set i ⟨c, k (reg.exec op s.world).1, tr ++ [reg.event op s.world]⟩⟩) := by
  cases op with
  | lock mutex => exact .skip (adds_quiet hi (.inl rfl) rfl le_rfl)
  | unlock mutex => exact .skip (adds_quiet hi (.inl rfl) rfl le_rfl)
  | get key => exact .skip (adds_quiet hi (.inl rfl) rfl le_rfl)
  | start task => exact .skip (adds_quiet hi (.inl rfl) rfl le_rfl)
  | set key entry => exact step_set hi hpre (by simpa [Registry.CleanOp] using hclean) rfl rfl
  | deleteSubjectKeys cache subject =>
    obtain ⟨permanent, rfl, -⟩ := hpre
    refine step_clear hi (fun key entry hget => ?_) rfl
    obtain ⟨hget, hkey⟩ := ClientWorld.get?_deleteSubjectKeys hget
    refine ⟨hget, fun hcache => ?_⟩
    rw [Bool.eq_false_iff]
    exact fun hclears => hkey ⟨hcache, subject?_of_clears hclears⟩
  | deleteVersionKeys subject version =>
    obtain ⟨permanent, rfl, -⟩ := hpre
    refine step_clear hi (fun key entry hget => ?_) rfl
    obtain ⟨hget, hkey⟩ := ClientWorld.get?_deleteVersionKeys hget
    refine ⟨hget, fun _ => ?_⟩
    rw [Bool.eq_false_iff]
    intro hclears
    rw [isVersionKey_of_clears hclears] at hkey
    cases hkey
  | send request =>
    cases h : (reg.answer request s.world.registry).1 with
    | error e =>
      have hev : reg.event (.send request) s.world = .refused := by simp [Registry.event, h]
      exact .skip (adds_quiet hi (.inr hev) rfl (Nat.le_succ _))
    | ok data =>
      have hev : reg.event (.send request) s.world = .answered data s.world.clock := by simp [Registry.event, h]
      rw [hev]
      exact step_answer hi rfl rfl
  | sendDeleteSubject request =>
    obtain ⟨hpending, hcleared, hsome⟩ := hpre
    obtain ⟨subject, hsub⟩ := Option.isSome_iff_exists.mp hsome
    cases h : (reg.deleteSubject request s.world.registry).1 with
    | error e =>
      have hev : reg.event (.sendDeleteSubject request) s.world = .refused := by simp [Registry.event, h]
      exact .skip (adds_quiet hi (.inr hev) rfl (Nat.le_succ _))
    | ok versions =>
      have hev : reg.event (.sendDeleteSubject request) s.world = .deleted versions s.world.clock := by
        simp [Registry.event, h]
      have hversions : reg.deletedBy (.sendDeleteSubject request) s.world.registry = versions := by
        simp [Registry.deletedBy, h]
      obtain ⟨hentries, hunstored⟩ := cleanOp_delete hclean hsub (by simp)
      rw [hversions] at hentries hunstored
      rw [hev]
      exact step_delete hi hsub hpending hcleared hentries hunstored rfl rfl
  | sendDeleteVersion request =>
    obtain ⟨hpending, hcleared, hsome⟩ := hpre
    obtain ⟨subject, hsub⟩ := Option.isSome_iff_exists.mp hsome
    cases h : (reg.deleteVersion request s.world.registry).1 with
    | error e =>
      have hev : reg.event (.sendDeleteVersion request) s.world = .refused := by simp [Registry.event, h]
      exact .skip (adds_quiet hi (.inr hev) rfl (Nat.le_succ _))
    | ok version =>
      have hev : reg.event (.sendDeleteVersion request) s.world = .deleted [version] s.world.clock := by
        simp [Registry.event, h]
      have hversions : reg.deletedBy (.sendDeleteVersion request) s.world.registry = [version] := by
        simp [Registry.deletedBy, h]
      obtain ⟨hentries, hunstored⟩ := cleanOp_delete hclean hsub (by simp)
      rw [hversions] at hentries hunstored
      rw [hev]
      exact step_delete hi hsub hpending hcleared hentries hunstored rfl rfl

end Views

/-! ## Runs -/

section Runs

variable {reg : Registry ρ ε} {s s' : ClientPool ρ ε} {l : ClientLabel ρ}

/-- The calls keep their contracts, and the view of the pool is good. -/
structure DeleteInv (reg : Registry ρ ε) (s : ClientPool ρ ε) : Prop where
  threads : ∀ t ∈ s.threads, Ensures reg.client.toMachine (callContract ρ t.arg) Resolves t.prog s.world t.trace
  view : deletions.Good (ClientPool.view s)

theorem DeleteInv.step (h : DeleteInv reg s) (hc : reg.CleanDelete s l = true)
    (hs : reg.client.step s l = some s') :
    DeleteInv reg s' := by
  obtain ⟨c, -, rfl⟩ | ⟨i, inp, c, op, k, tr, rfl, hi, rfl⟩ | ⟨e, -, rfl⟩ := System.step_cases hs
  · refine ⟨fun t ht => ?_, (Invalidation.Step.skip (adds_spawn c _)).good h.view⟩
    obtain ht | ht := List.mem_append.mp ht
    · exact h.threads t ht
    · rw [List.mem_singleton.mp ht]
      exact ensures_start reg c s.world
  · obtain ⟨hpre, hk⟩ := h.threads _ (List.mem_of_getElem? hi) s.world trivial
    have hclean : reg.CleanOp s c op = true := by
      simp only [Registry.CleanDelete, Registry.nextOp?, hi, Option.all_some, Bool.and_eq_true] at hc
      exact hc.2
    refine ⟨fun t ht => ?_, (step_op hi hpre hclean).good h.view⟩
    obtain ht | rfl := List.mem_or_eq_of_mem_set ht
    · exact (h.threads t ht).later trivial
    · exact hk inp
  · exact ⟨fun t ht => (h.threads t ht).later trivial, (Invalidation.Step.skip (adds_env e)).good h.view⟩

theorem DeleteInv.init (r : ρ) : DeleteInv reg ⟨.init r, []⟩ where
  threads := by simp
  view :=
    { past := by simp [ClientPool.view]
      cached := by simp [ClientPool.view]
      unstored := by simp [ClientPool.view]
      cleared := by simp [ClientPool.view, ClientWorld.init] }

theorem mem_deleted_step {d : Deletion} (hd : d ∈ (ClientPool.view s).deleted)
    (hs : reg.client.step s l = some s') :
    d ∈ (ClientPool.view s').deleted := by
  obtain ⟨t, ht, hsub, hdel⟩ := hd
  obtain ⟨c, -, rfl⟩ | ⟨i, inp, c, op, k, tr, rfl, hi, rfl⟩ | ⟨e, -, rfl⟩ := System.step_cases hs
  · exact ⟨t, List.mem_append_left _ ht, hsub, hdel⟩
  · obtain ⟨j, hj⟩ := List.mem_iff_getElem?.mp ht
    by_cases hij : i = j
    · subst hij
      obtain rfl := Option.some.inj (hi.symm.trans hj)
      have hlt := (List.getElem?_eq_some_iff.mp hj).1
      exact ⟨_, List.mem_of_getElem? (List.getElem?_set_self hlt), hsub, List.mem_append_left _ hdel⟩
    · exact ⟨t, List.mem_of_getElem? ((List.getElem?_set_ne hij).trans hj), hsub, hdel⟩
  · exact ⟨t, ht, hsub, hdel⟩

/-! ## Replies -/

def cleanContract (ρ : Type) (d : Deletion) : Contract ClientOp (ClientWorld ρ) ClientEvent where
  rely _ w := ∀ key entry, w.caches.get? key = some entry → ¬deletions.Stale d (key, entry)
  refl h := h
  trans _ h := h
  pre _ _ _ := True

def NotServed (d : Deletion) (r : Except ε ClientReply) (_ : ClientWorld ρ) (_ : List ClientEvent) : Prop :=
  ∀ key entry, r = .ok (.cached key entry) → ¬deletions.Stale d (key, entry)

theorem notServed_ask (d : Deletion) (r : CachedRequest) (w : ClientWorld ρ) (tr : List ClientEvent) :
    Ensures reg.client.toMachine (cleanContract ρ d) (NotServed d) (ClientProg.ask r) w tr := by
  intro w₁ _
  refine ⟨trivial, fun _ => ?_⟩
  generalize (reg.client.exec _ (.send r.request) w₁).1 = answer
  cases answer with
  | error e =>
    intro w₂ _
    refine ⟨trivial, fun _ => ?_⟩
    rintro w₃ - key entry h
    cases h
  | ok data =>
    intro w₂ _
    refine ⟨trivial, fun _ => ?_⟩
    intro w₃ _
    refine ⟨trivial, fun _ => ?_⟩
    rintro w₄ - key entry h
    cases h

theorem notServed_cachedRequest (d : Deletion) (r : CachedRequest) (w : ClientWorld ρ) :
    Ensures reg.client.toMachine (cleanContract ρ d) (NotServed d) (ClientProg.cachedRequest r) w [] := by
  intro w₁ _
  refine ⟨trivial, fun _ => ?_⟩
  intro w₂ hclean
  refine ⟨trivial, fun _ => ?_⟩
  have hans : (reg.client.exec () (.get r.lookup) w₂).1 = w₂.caches.get? r.lookup := rfl
  rw [hans]
  cases hget : w₂.caches.get? r.lookup with
  | none => exact notServed_ask d r _ _
  | some entry =>
    by_cases hu : r.usable entry.value
    · simp only [Prog.bind, hu, if_true]
      intro w₃ _
      refine ⟨trivial, fun _ => ?_⟩
      rintro w₄ - key entry' h
      simp only [Except.ok.injEq, ClientReply.cached.injEq] at h
      obtain ⟨rfl, rfl⟩ := h
      exact hclean r.lookup entry hget
    · simp only [Prog.bind, hu]
      exact notServed_ask d r _ _

theorem notServed_start (d : Deletion) (c : ClientCall) (w : ClientWorld ρ) :
    Ensures reg.client.toMachine (cleanContract ρ d) (NotServed d) (reg.client.start c) w [] := by
  cases c with
  | read call => exact notServed_cachedRequest d call.cachedRequest w
  | registerFullResponse subject schema normalize => exact notServed_cachedRequest d _ w
  | deleteSubject subject permanent =>
    iterate 13 refine fun _ _ => ⟨trivial, fun _ => ?_⟩
    generalize (reg.client.exec _ (.sendDeleteSubject _) _).1 = answer
    cases answer <;>
    · rintro w' - key entry h
      cases h
  | deleteSubjectVersion subject version permanent =>
    iterate 4 refine fun _ _ => ⟨trivial, fun _ => ?_⟩
    generalize (reg.client.exec _ (.sendDeleteVersion _) _).1 = answer
    cases answer <;>
    · refine fun _ _ => ⟨trivial, fun _ => ?_⟩
      rintro w' - key entry h
      cases h

/-- The calls made from the `n`-th on, once the deletion is over. -/
structure ServedInv (reg : Registry ρ ε) (d : Deletion) (n : Nat) (s : ClientPool ρ ε) : Prop where
  inv : DeleteInv reg s
  deleted : d ∈ (ClientPool.view s).deleted
  later : ∀ j t, n ≤ j → s.threads[j]? = some t →
    Ensures reg.client.toMachine (cleanContract ρ d) (NotServed d) t.prog s.world t.trace

theorem ServedInv.clean {d : Deletion} {n : Nat} (h : ServedInv reg d n s) {w : ClientWorld ρ} :
    (cleanContract ρ d).rely w s.world :=
  fun key entry hget => h.inv.view.cached d h.deleted (key, entry) hget

theorem ServedInv.step {d : Deletion} {n : Nat} (h : ServedInv reg d n s) (hc : reg.CleanDelete s l = true)
    (hs : reg.client.step s l = some s') : ServedInv reg d n s' := by
  have hinv := h.inv.step hc hs
  have hdel := mem_deleted_step h.deleted hs
  have hclean : ∀ w, (cleanContract ρ d).rely w s'.world := fun w key entry hget =>
    hinv.view.cached d hdel (key, entry) hget
  refine ⟨hinv, hdel, ?_⟩
  obtain ⟨c, -, rfl⟩ | ⟨i, inp, c, op, k, tr, rfl, hi, rfl⟩ | ⟨e, -, rfl⟩ := System.step_cases hs
  · intro j t hj ht
    rw [List.getElem?_append] at ht
    split at ht
    · exact h.later j t hj ht
    · obtain rfl := List.mem_singleton.mp (List.mem_of_getElem? ht)
      exact notServed_start d c s.world
  · intro j t hj ht
    by_cases hij : i = j
    · subst hij
      rw [List.getElem?_set_self (List.getElem?_eq_some_iff.mp hi).1] at ht
      obtain rfl := Option.some.inj ht
      exact (h.later i _ hj hi s.world h.clean).2 inp
    · rw [List.getElem?_set_ne hij] at ht
      exact (h.later j t hj ht).later (hclean _)
  · intro j t hj ht
    exact (h.later j t hj ht).later (hclean _)

/-- A run whose steps are all clean, in which a delete has resolved, and the run from there on: a
call made since is not answered from a cache with a version that the delete has deleted, as the
registry had answered it before. -/
theorem deleted_version_not_served {r : ρ} {ls₁ : List (ClientLabel ρ)} {s₁ : ClientPool ρ ε}
    (h₁ : (reg.client.pool ⟨.init r, []⟩).RunWhere (fun s l => reg.CleanDelete s l = true) ls₁ s₁) {i : Nat}
    {d : ClientThread ε} (hd : s₁.threads[i]? = some d) {subject : String} (hsub : d.arg.deletes? = some subject)
    {versions : List Int} {time : Nat} (hdone : d.prog.result? = some (.ok (.deleted versions time)))
    {ls₂ : List (ClientLabel ρ)} {s₂ : ClientPool ρ ε}
    (h₂ : (reg.client.pool s₁).RunWhere (fun s l => reg.CleanDelete s l = true) ls₂ s₂) {j : Nat}
    {t : ClientThread ε}
    (hj : s₁.threads.length ≤ j) (ht : s₂.threads[j]? = some t) {key : CacheKey} {entry : CacheEntry}
    (hreply : t.prog.result? = some (.ok (.cached key entry))) :
    ¬(hitsVersions subject versions key entry = true ∧ entry.time < time) := by
  have hinv : DeleteInv reg s₁ := h₁.inv (DeleteInv.init r) fun _ _ _ hs hc hstep => hs.step hc hstep
  have hmem := (hinv.threads d (List.mem_of_getElem? hd)).result trivial hdone versions time rfl
  have hserved : ServedInv reg ⟨subject, versions, time⟩ s₁.threads.length s₁ := by
    refine ⟨hinv, ⟨d, List.mem_of_getElem? hd, hsub, hmem⟩, fun j t hj ht => ?_⟩
    have := (List.getElem?_eq_some_iff.mp ht).1
    omega
  have hend := h₂.inv hserved fun _ _ _ hs hc hstep => hs.step hc hstep
  exact (hend.later j t hj ht).result hend.clean hreply key entry rfl

end Runs

/-! ## Two runs -/

def oneVersion : Registry (Option Int) Unit where
  answer _ r :=
    match r with
    | some v => (.ok { schema := "\"string\"", id := some 1, version := some v }, r)
    | none => (.error (), r)
  deleteSubject _ r := (.ok r.toList, none)
  deleteVersion _ r :=
    match r with
    | some v => (.ok v, none)
    | none => (.error (), none)

def callLabels (c : ClientCall) (i n : Nat) : List (ClientLabel (Option Int)) :=
  .spawn c :: List.replicate n (.step i ())

structure Observation where
  deletes? : Option String
  result? : Option (Except Unit ClientReply)
  deriving DecidableEq

def observed (s : ClientPool (Option Int) Unit) : List Observation :=
  s.threads.map fun t => ⟨t.arg.deletes?, t.prog.result?⟩

def observe (C : ClientPool (Option Int) Unit → ClientLabel (Option Int) → Bool)
    (ls₁ ls₂ : List (ClientLabel (Option Int))) :
    Option (List Observation × List Observation) :=
  ((oneVersion.client.pool ⟨.init (some 1), []⟩).exec C ⟨.init (some 1), []⟩ ls₁).bind fun s₁ =>
    ((oneVersion.client.pool s₁).exec C s₁ ls₂).map fun s₂ => (observed s₁, observed s₂)

theorem exists_of_observe {C : ClientPool (Option Int) Unit → ClientLabel (Option Int) → Bool}
    {ls₁ ls₂ : List (ClientLabel (Option Int))}
    {a b : List Observation} (h : observe C ls₁ ls₂ = some (a, b)) :
    ∃ s₁ s₂, (oneVersion.client.pool ⟨.init (some 1), []⟩).exec C ⟨.init (some 1), []⟩ ls₁ = some s₁ ∧
      (oneVersion.client.pool s₁).exec C s₁ ls₂ = some s₂ ∧ observed s₁ = a ∧ observed s₂ = b := by
  obtain ⟨s₁, h₁, h'⟩ := Option.bind_eq_some_iff.mp h
  obtain ⟨s₂, h₂, hab⟩ := Option.map_eq_some_iff.mp h'
  obtain ⟨ha, hb⟩ := Prod.mk.inj hab
  exact ⟨s₁, s₂, h₁, h₂, ha, hb⟩

theorem thread_of_observed {s : ClientPool (Option Int) Unit} {i : Nat} {o : Option String}
    {r : Option (Except Unit ClientReply)} (h : (observed s)[i]? = some ⟨o, r⟩) :
    ∃ t, s.threads[i]? = some t ∧ t.arg.deletes? = o ∧ t.prog.result? = r := by
  simpa [observed] using h

def latestLabels : List (ClientLabel (Option Int)) :=
  callLabels (.read (.getLatestSchemaMetadata "orders" none)) 0 5 ++ callLabels (.deleteSubject "orders" false) 1 13

/-- The version deleted with its subject is still the latest one for this client. -/
theorem deleted_version_served :
    ¬∀ (reg : Registry (Option Int) Unit) (r : Option Int) (ls₁ ls₂ : List (ClientLabel (Option Int)))
      (s₁ s₂ : ClientPool (Option Int) Unit) (i j : Nat) (d t : ClientThread Unit) (subject : String)
      (versions : List Int) (time : Nat) (key : CacheKey) (entry : CacheEntry),
      (reg.client.pool ⟨.init r, []⟩).RunWhere (fun s l => Registry.Ready s l = true) ls₁ s₁ →
      s₁.threads[i]? = some d → d.arg.deletes? = some subject →
      d.prog.result? = some (.ok (.deleted versions time)) →
      (reg.client.pool s₁).RunWhere (fun s l => Registry.Ready s l = true) ls₂ s₂ →
      s₁.threads.length ≤ j → s₂.threads[j]? = some t → t.prog.result? = some (.ok (.cached key entry)) →
        ¬(hitsVersions subject versions key entry = true ∧ entry.time < time) := by
  intro h
  have hobs : observe Registry.Ready latestLabels
    (callLabels (.read (.getLatestSchemaMetadata "orders" none)) 2 3) =
      some ([⟨none, some (.ok (.fetched (.schema { schema := "\"string\"", id := some 1, version := some 1 })))⟩,
          ⟨some "orders", some (.ok (.deleted [1] 1))⟩],
        [⟨none, some (.ok (.fetched (.schema { schema := "\"string\"", id := some 1, version := some 1 })))⟩,
          ⟨some "orders", some (.ok (.deleted [1] 1))⟩,
          ⟨none, some (.ok (.cached (.latestToSchema "orders")
            ⟨.schema { schema := "\"string\"", id := some 1, version := some 1 }, 0⟩))⟩]) := by
    decide +kernel
  obtain ⟨s₁, s₂, h₁, h₂, ho₁, ho₂⟩ := exists_of_observe hobs
  obtain ⟨d, hd, hsub, hdone⟩ := thread_of_observed (s := s₁) (i := 1) (by rw [ho₁]; rfl)
  obtain ⟨t, ht, -, hreply⟩ := thread_of_observed (s := s₂) (i := 2) (by rw [ho₂]; rfl)
  have hlen : s₁.threads.length = 2 := by simpa [observed] using congrArg List.length ho₁
  refine h oneVersion (some 1) _ _ s₁ s₂ 1 2 d t "orders" _ _ _ _ (Lts.RunWhere.of_exec .nil h₁) hd hsub hdone
    (Lts.RunWhere.of_exec .nil h₂) hlen.le ht hreply ?_
  decide +kernel

/-- A version is read and its subject deleted. Another version is registered, and read twice. -/
theorem deleted_version_not_served_again :
    ∃ s₁ s₂ d t key entry,
      (oneVersion.client.pool ⟨.init (some 1), []⟩).RunWhere (fun s l => oneVersion.CleanDelete s l = true)
        (callLabels (.read (.getSchemaMetadata "orders" 1 false none)) 0 5 ++
          callLabels (.deleteSubject "orders" false) 1 13) s₁ ∧
      s₁.threads[1]? = some d ∧ d.arg.deletes? = some "orders" ∧ d.prog.result? = some (.ok (.deleted [1] 1)) ∧
      (oneVersion.client.pool s₁).RunWhere (fun s l => oneVersion.CleanDelete s l = true)
        (.env (.registry (some 2)) :: callLabels (.read (.getSchemaMetadata "orders" 2 false none)) 2 5 ++
          callLabels (.read (.getSchemaMetadata "orders" 2 false none)) 3 3) s₂ ∧
      s₂.threads[3]? = some t ∧ t.prog.result? = some (.ok (.cached key entry)) ∧
      ¬(hitsVersions "orders" [1] key entry = true ∧ entry.time < 1) := by
  have hobs : observe oneVersion.CleanDelete
      (callLabels (.read (.getSchemaMetadata "orders" 1 false none)) 0 5 ++
        callLabels (.deleteSubject "orders" false) 1 13)
      (.env (.registry (some 2)) :: callLabels (.read (.getSchemaMetadata "orders" 2 false none)) 2 5 ++
        callLabels (.read (.getSchemaMetadata "orders" 2 false none)) 3 3) =
      some ([⟨none, some (.ok (.fetched (.schema { schema := "\"string\"", id := some 1, version := some 1 })))⟩,
          ⟨some "orders", some (.ok (.deleted [1] 1))⟩],
        [⟨none, some (.ok (.fetched (.schema { schema := "\"string\"", id := some 1, version := some 1 })))⟩,
          ⟨some "orders", some (.ok (.deleted [1] 1))⟩,
          ⟨none, some (.ok (.fetched (.schema { schema := "\"string\"", id := some 1, version := some 2 })))⟩,
          ⟨none, some (.ok (.cached (.versionToSchema "orders" 2 (some false))
            ⟨.schema { schema := "\"string\"", id := some 1, version := some 2 }, 2⟩))⟩]) := by
    decide +kernel
  obtain ⟨s₁, s₂, h₁, h₂, ho₁, ho₂⟩ := exists_of_observe hobs
  obtain ⟨d, hd, hsub, hdone⟩ := thread_of_observed (s := s₁) (i := 1) (by rw [ho₁]; rfl)
  obtain ⟨t, ht, -, hreply⟩ := thread_of_observed (s := s₂) (i := 3) (by rw [ho₂]; rfl)
  have hlen : s₁.threads.length ≤ 3 := by
    have : s₁.threads.length = 2 := by simpa [observed] using congrArg List.length ho₁
    omega
  have hr₁ := Lts.RunWhere.of_exec .nil h₁
  have hr₂ := Lts.RunWhere.of_exec .nil h₂
  exact ⟨s₁, s₂, d, t, _, _, hr₁, hd, hsub, hdone, hr₂, ht, hreply,
    deleted_version_not_served hr₁ hd hsub hdone hr₂ hlen ht hreply⟩

end ConfluentKafka
