import ConfluentKafka.RegistryClient
import Mathlib.Tactic.Set

/-!
# Cached answers

A registry that answers each request in one way, and any sequence of reads of one client. What a
read takes from a cache was stored by an earlier read, which may have asked for something else:
`confuses` says when. Where no call is confused with an earlier one, every cached answer is the
one that the registry gives to the call's own request.
-/

namespace ConfluentKafka

variable {ρ ε : Type}

/-! ## One call -/

namespace ClientWorld

theorem get?_deleteSubjectKeys {w : ClientWorld ρ} {cache : ClientCache} {subject : String} {key : CacheKey}
    {entry : CacheEntry} (h : (w.deleteSubjectKeys cache subject).caches.get? key = some entry) :
    w.caches.get? key = some entry ∧ ¬ (key.cache = cache ∧ key.subject? = some subject) := by
  obtain ⟨hget, hp⟩ := JsMap.get?_deleteWhere_eq_some.mp h
  exact ⟨hget, by simpa using hp⟩

theorem get?_deleteVersionKeys {w : ClientWorld ρ} {subject : String} {version : Int} {key : CacheKey}
    {entry : CacheEntry} (h : (w.deleteVersionKeys subject version).caches.get? key = some entry) :
    w.caches.get? key = some entry ∧ isVersionKey subject version key entry = false :=
  JsMap.get?_deleteWhere_eq_some.mp h

theorem get?_delete {m : JsMap CacheKey CacheEntry} {key key' : CacheKey} {entry : CacheEntry}
    (h : (m.delete key').get? key = some entry) : m.get? key = some entry := by
  rw [JsMap.get?_delete] at h
  split at h
  · cases h
  · exact h

theorem get?_runTask {w : ClientWorld ρ} {task : ClientTask} {key : CacheKey} {entry : CacheEntry}
    (h : (w.runTask task).caches.get? key = some entry) : w.caches.get? key = some entry := by
  cases task with
  | delete mutex key' => exact get?_delete h
  | deleteInfo subject schema =>
    simp only [runTask] at h
    split at h
    · exact h
    · exact get?_delete h

end ClientWorld

/-- The world by itself only drops entries. -/
theorem Registry.get?_env {e : ClientEnv ρ} {w : ClientWorld ρ} {key : CacheKey} {entry : CacheEntry}
    (h : (Registry.env e w).caches.get? key = some entry) : w.caches.get? key = some entry := by
  cases e with
  | evict key' => exact ClientWorld.get?_delete h
  | clearLatestCaches => exact (JsMap.get?_deleteWhere_eq_some.mp h).1
  | clearCaches => simp [env, ClientWorld.mapCaches] at h
  | registry r => exact h
  | task n =>
    simp only [env] at h
    split at h
    · exact h
    · split at h
      · exact h
      · exact ClientWorld.get?_runTask (w := { w with tasks := w.tasks.eraseIdx n }) h

section OneCall

variable (reg : Registry ρ ε) (r : CachedRequest) (w : ClientWorld ρ)

theorem run_ask :
    (∃ data, (reg.answer r.request w.registry).1 = .ok data ∧
      ((ClientProg.ask r).run reg.exec w).1 = .ok (.fetched (r.value data)) ∧
      ((ClientProg.ask r).run reg.exec w).2.caches = w.caches.set r.store ⟨r.value data, w.clock⟩) ∨
    ∃ e, ((ClientProg.ask r).run reg.exec w).1 = .error e ∧ ((ClientProg.ask r).run reg.exec w).2.caches =
      w.caches := by
  cases h : (reg.answer r.request w.registry).1 with
  | ok data =>
    left
    refine ⟨data, rfl, ?_, ?_⟩
    · simp [ClientProg.ask, ClientProg.call, Registry.exec, ClientWorld.exchange, Except.map, h]
    · simp [ClientProg.ask, ClientProg.call, Registry.exec, ClientWorld.exchange, Except.map, h,
        ClientWorld.mapCaches]
  | error e =>
    right
    refine ⟨e, ?_, ?_⟩
    · simp [ClientProg.ask, ClientProg.call, Registry.exec, ClientWorld.exchange, Except.map, h]
    · simp [ClientProg.ask, ClientProg.call, Registry.exec, ClientWorld.exchange, Except.map, h]

theorem run_cachedRequest :
    (∃ entry, w.caches.get? r.lookup = some entry ∧
      ((ClientProg.cachedRequest r).run reg.exec w).1 = .ok (.cached r.lookup entry) ∧
      ((ClientProg.cachedRequest r).run reg.exec w).2.caches = w.caches) ∨
    (∃ data, (reg.answer r.request w.registry).1 = .ok data ∧
      ((ClientProg.cachedRequest r).run reg.exec w).1 = .ok (.fetched (r.value data)) ∧
      ((ClientProg.cachedRequest r).run reg.exec w).2.caches = w.caches.set r.store ⟨r.value data, w.clock⟩) ∨
    ∃ e, ((ClientProg.cachedRequest r).run reg.exec w).1 = .error e ∧
      ((ClientProg.cachedRequest r).run reg.exec w).2.caches = w.caches := by
  -- the lock is taken first
  set w₁ : ClientWorld ρ := { w with locked := r.mutex :: w.locked } with hw₁
  have hask := run_ask reg r w₁
  cases h : w.caches.get? r.lookup with
  | none =>
    have hrun : (ClientProg.cachedRequest r).run reg.exec w = (ClientProg.ask r).run reg.exec w₁ := by
      simp [ClientProg.cachedRequest, ClientProg.call, Registry.exec, h, hw₁]
    rw [hrun]
    exact .inr hask
  | some entry =>
    by_cases hu : r.usable entry.value
    · left
      refine ⟨entry, rfl, ?_, ?_⟩
      · simp [ClientProg.cachedRequest, ClientProg.call, Registry.exec, h, hu]
      · simp [ClientProg.cachedRequest, ClientProg.call, Registry.exec, h, hu]
    · have hrun : (ClientProg.cachedRequest r).run reg.exec w = (ClientProg.ask r).run reg.exec w₁ := by
        simp [ClientProg.cachedRequest, ClientProg.call, Registry.exec, h, hu, hw₁]
      rw [hrun]
      exact .inr hask

end OneCall

/-! ## Sequences of reads -/

/-- The earlier call's answer is stored where the later one looks, and is not the answer to the
later one's request. -/
def ReadCall.confuses : ReadCall → ReadCall → Bool
  | getBySubjectAndId subject id format, getBySubjectAndId subject' id' format' =>
    subject = subject' ∧ id = id' ∧ format ≠ format'
  | getByGuid guid format, getByGuid guid' format' => guid = guid' ∧ format ≠ format'
  | getIdFullResponse subject schema normalize, getIdFullResponse subject' schema' normalize' =>
    subject = subject' ∧ (minimize schema).sorted = (minimize schema').sorted ∧
      (schema ≠ schema' ∨ normalize ≠ normalize')
  | getLatestSchemaMetadata subject format, getLatestSchemaMetadata subject' format' =>
    encodeURIComponent subject = subject' ∧ (subject ≠ subject' ∨ format ≠ format')
  | getSchemaMetadata subject version deleted format, getSchemaMetadata subject' version' deleted' format' =>
    subject = subject' ∧ version = version' ∧ deleted = deleted' ∧ format ≠ format'
  | getLatestWithMetadata subject metadata deleted format,
    getLatestWithMetadata subject' metadata' deleted' format' =>
    subject = subject' ∧ sortEntries metadata = sortEntries metadata' ∧ deleted = deleted' ∧
      (metadata ≠ metadata' ∨ format ≠ format')
  | getVersion subject schema normalize deleted, getVersion subject' schema' normalize' deleted' =>
    subject = subject' ∧ (minimize schema).sorted = (minimize schema').sorted ∧ deleted = deleted' ∧
      (schema ≠ schema' ∨ normalize ≠ normalize')
  | _, _ => false

theorem ReadCall.same_request {c c' : ReadCall} (hkey : c.cachedRequest.store = c'.cachedRequest.lookup)
    (h : c.confuses c' = false) :
    c.cachedRequest.request = c'.cachedRequest.request ∧ c.cachedRequest.value = c'.cachedRequest.value := by
  -- different functions have keys of different caches
  cases c <;> cases c' <;> first
    | cases hkey
      done
    | simp only [cachedRequest, ConfluentKafka.getBySubjectAndId, ConfluentKafka.getByGuid,
        ConfluentKafka.getIdFullResponse, ConfluentKafka.getLatestSchemaMetadata, ConfluentKafka.getSchemaMetadata,
        ConfluentKafka.getLatestWithMetadata, ConfluentKafka.getVersion] at hkey ⊢
      simp_all [confuses]

def Registry.fixed (f : Request → Except ε SchemaMetadata) : Registry Unit ε where
  answer request r := (f request, r)
  deleteSubject _ r := (.ok [], r)
  deleteVersion _ r := (.ok 0, r)

structure ReadState (ε : Type) where
  world : ClientWorld Unit
  replies : List (ReadCall × Except ε ClientReply)

inductive ReadLabel where
  | call (call : ReadCall)
  | env (e : ClientEnv Unit)

def ClientWorld.init (r : ρ) : ClientWorld ρ where
  caches := JsMap.empty
  locked := []
  tasks := []
  registry := r
  clock := 0

def reads (f : Request → Except ε SchemaMetadata) : Lts (ReadState ε) ReadLabel where
  init := ⟨.init (), []⟩
  step s
    | .call c =>
      let (r, w) := (ClientProg.cachedRequest c.cachedRequest).run (Registry.fixed f).exec s.world
      some ⟨w, s.replies ++ [(c, r)]⟩
    | .env e => some { s with world := Registry.env e s.world }

def NotConfused (s : ReadState ε) : ReadLabel → Bool
  | .call c => s.replies.all fun r => !r.1.confuses c
  | .env _ => true

def OwnAnswer (f : Request → Except ε SchemaMetadata) (c : ReadCall) (value : CacheValue) : Prop :=
  ∃ data, f c.cachedRequest.request = .ok data ∧ value = c.cachedRequest.value data

structure ReadInv (f : Request → Except ε SchemaMetadata) (s : ReadState ε) : Prop where
  stored : ∀ key entry, s.world.caches.get? key = some entry →
    ∃ r ∈ s.replies, r.1.cachedRequest.store = key ∧ OwnAnswer f r.1 entry.value
  replied : ∀ c key entry, (c, .ok (.cached key entry)) ∈ s.replies → OwnAnswer f c entry.value

theorem OwnAnswer.of_same {f : Request → Except ε SchemaMetadata} {c c' : ReadCall} {value : CacheValue}
    (hkey : c.cachedRequest.store = c'.cachedRequest.lookup) (h : c.confuses c' = false)
    (ha : OwnAnswer f c value) :
    OwnAnswer f c' value := by
  obtain ⟨data, hf, hv⟩ := ha
  obtain ⟨hreq, hval⟩ := ReadCall.same_request hkey h
  exact ⟨data, hreq ▸ hf, hval ▸ hv⟩

section Steps

variable {f : Request → Except ε SchemaMetadata} {s : ReadState ε}

theorem ReadInv.env (h : ReadInv f s) (e : ClientEnv Unit) :
    ReadInv f { s with world := Registry.env e s.world } where
  stored key entry hget := h.stored key entry (Registry.get?_env hget)
  replied := h.replied

theorem ReadInv.call (h : ReadInv f s) {c : ReadCall} (hc : ∀ r ∈ s.replies, r.1.confuses c = false) :
    let p := (ClientProg.cachedRequest c.cachedRequest).run (Registry.fixed f).exec s.world
    ReadInv f ⟨p.2, s.replies ++ [(c, p.1)]⟩ := by
  intro p
  have hold : ∀ key entry, s.world.caches.get? key = some entry →
      ∃ r ∈ s.replies ++ [(c, p.1)], r.1.cachedRequest.store = key ∧ OwnAnswer f r.1 entry.value := by
    intro key entry hget
    obtain ⟨r, hr, hstore⟩ := h.stored key entry hget
    exact ⟨r, List.mem_append_left _ hr, hstore⟩
  obtain ⟨entry, hget, hp₁, hp₂⟩ | ⟨data, hf, hp₁, hp₂⟩ | ⟨e, hp₁, hp₂⟩ :=
    run_cachedRequest (Registry.fixed f) c.cachedRequest s.world
  · -- from the cache: an earlier call stored it, and asked for the same
    refine ⟨fun key entry hget => hold key entry (by rwa [hp₂] at hget), ?_⟩
    intro c' key' entry' hmem
    obtain hmem | hmem := List.mem_append.mp hmem
    · exact h.replied c' key' entry' hmem
    · obtain ⟨r, hr, hstore, hown⟩ := h.stored _ _ hget
      simp only [List.mem_singleton, Prod.mk.injEq] at hmem
      obtain ⟨rfl, hreply⟩ := hmem
      have heq := hreply.trans hp₁
      simp only [Except.ok.injEq, ClientReply.cached.injEq] at heq
      rw [heq.2]
      exact hown.of_same hstore (hc r hr)
  · -- from the registry
    refine ⟨fun key entry hget => ?_, ?_⟩
    · rw [hp₂, JsMap.get?_set] at hget
      split at hget
      · next hkey =>
        obtain rfl := Option.some.inj hget
        exact ⟨(c, p.1), by simp, hkey.symm, data, hf, rfl⟩
      · exact hold key entry hget
    · intro c' key' entry' hmem
      obtain hmem | hmem := List.mem_append.mp hmem
      · exact h.replied c' key' entry' hmem
      · simp only [List.mem_singleton, Prod.mk.injEq] at hmem
        cases hmem.2.trans hp₁
  · refine ⟨fun key entry hget => hold key entry (by rwa [hp₂] at hget), ?_⟩
    intro c' key' entry' hmem
    obtain hmem | hmem := List.mem_append.mp hmem
    · exact h.replied c' key' entry' hmem
    · simp only [List.mem_singleton, Prod.mk.injEq] at hmem
      cases hmem.2.trans hp₁

end Steps

/-- In every sequence of reads in which no call is confused with an earlier one, each call that
returns a cached value returns what the registry answers to its own request. -/
theorem cached_reply_is_own_answer (f : Request → Except ε SchemaMetadata) {ls : List ReadLabel} {s : ReadState ε}
    (hr : (reads f).RunWhere (fun s l => NotConfused s l = true) ls s) {c : ReadCall} {key : CacheKey}
    {entry : CacheEntry} (h : (c, .ok (.cached key entry)) ∈ s.replies) :
    ∃ data, f c.cachedRequest.request = .ok data ∧ entry.value = c.cachedRequest.value data := by
  have hinv : ReadInv f s := by
    apply hr.inv (I := ReadInv f)
    · exact ⟨by simp [reads, ClientWorld.init], by simp [reads]⟩
    · intro s₁ l s₂ hs hc hstep
      cases l with
      | env e =>
        obtain rfl := Option.some.inj hstep
        exact hs.env e
      | call c =>
        obtain rfl := Option.some.inj hstep
        exact hs.call (by simpa [NotConfused] using hc)
  exact hinv.replied c key entry h

def echo (request : Request) : Except Unit SchemaMetadata := .ok { schema := request.url, version := some 1 }

def repliesTo (C : ReadState Unit → ReadLabel → Bool) (calls : List ReadCall) :
    Option (List (ReadCall × Except Unit ClientReply)) :=
  ((reads echo).exec C (reads echo).init (calls.map .call)).map ReadState.replies

theorem exists_of_repliesTo {C : ReadState Unit → ReadLabel → Bool} {calls : List ReadCall}
    {replies : List (ReadCall × Except Unit ClientReply)} (h : repliesTo C calls = some replies) :
    ∃ s, (reads echo).exec C (reads echo).init (calls.map .call) = some s ∧ s.replies = replies := by
  simpa [repliesTo] using h

/-- A latest schema, asked for twice. -/
theorem cached_reply_latest_twice :
    ∃ s key entry, (reads echo).RunWhere (fun s l => NotConfused s l = true)
        [.call (.getLatestSchemaMetadata "orders" none), .call (.getLatestSchemaMetadata "orders" none)] s ∧
      (.getLatestSchemaMetadata "orders" none, .ok (.cached key entry)) ∈ s.replies ∧
      ∃ data, echo (getLatestSchemaMetadata "orders" none).request = .ok data ∧ entry.value = .schema data := by
  have h : repliesTo NotConfused [.getLatestSchemaMetadata "orders" none, .getLatestSchemaMetadata "orders" none] =
      some [(.getLatestSchemaMetadata "orders" none,
          .ok (.fetched (.schema { schema := "/subjects/orders/versions/latest", version := some 1 }))),
        (.getLatestSchemaMetadata "orders" none,
          .ok (.cached (.latestToSchema "orders")
            ⟨.schema { schema := "/subjects/orders/versions/latest", version := some 1 }, 0⟩))] := by
    decide +kernel
  obtain ⟨s, hs, hreplies⟩ := exists_of_repliesTo h
  have hrun := Lts.RunWhere.of_exec .nil hs
  have hmem : (.getLatestSchemaMetadata "orders" none, .ok (.cached (.latestToSchema "orders")
      ⟨.schema { schema := "/subjects/orders/versions/latest", version := some 1 }, 0⟩)) ∈ s.replies := by
    simp [hreplies]
  exact ⟨s, _, _, hrun, hmem, cached_reply_is_own_answer echo hrun hmem⟩

/-- The latest schema of one subject is taken for that of another. -/
theorem confused_reads :
    ¬∀ (f : Request → Except Unit SchemaMetadata) (ls : List ReadLabel) (s : ReadState Unit) (c : ReadCall)
      (key : CacheKey) (entry : CacheEntry), (reads f).Run ls s → (c, .ok (.cached key entry)) ∈ s.replies →
        ∃ data, f c.cachedRequest.request = .ok data ∧ entry.value = c.cachedRequest.value data := by
  intro hall
  have h :
    (repliesTo (fun _ _ => true) [.getLatestSchemaMetadata "a b" none, .getLatestSchemaMetadata "a%20b" none]).map
      List.getLast? = some (some (.getLatestSchemaMetadata "a%20b" none,
        .ok (.cached (.latestToSchema "a%20b")
          ⟨.schema { schema := "/subjects/a%20b/versions/latest", version := some 1 }, 0⟩))) := by
    decide +kernel
  obtain ⟨replies, hreplies, hlast⟩ := Option.map_eq_some_iff.mp h
  obtain ⟨s, hs, rfl⟩ := exists_of_repliesTo hreplies
  obtain ⟨data, hdata, hvalue⟩ := hall echo _ s _ _ _ (Lts.Run.of_exec hs) (List.mem_of_getLast? hlast)
  have hurl : echo (getLatestSchemaMetadata "a%20b" none).request =
      .ok { schema := "/subjects/a%2520b/versions/latest", version := some 1 } := by
    decide +kernel
  obtain rfl := Except.ok.inj (hurl.symm.trans hdata)
  revert hvalue
  decide

end ConfluentKafka
