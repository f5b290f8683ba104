import ConfluentKafka.ConnectInv

/-!
# Concurrent calls of `disconnect` of a consumer

A call checks the state and writes it only when it has the lock. As long as no
call comes in between, one call at most works on the client: `disconnect_once`.
If one does, both do: `disconnect_twice`.
-/

namespace ConfluentKafka

namespace Connect

def DisconnectPhase.active : DisconnectPhase → Bool
  | .lock _ => true
  | .written => true
  | _ => false

def DisconnectPhase.locking : DisconnectPhase → Bool
  | .lock _ => true
  | _ => false

theorem DisconnectPhase.active_of_locking {ph : DisconnectPhase} (h : ph.locking = true) : ph.active = true := by
  cases ph <;> first | rfl | cases h

def Phase.attempting : Phase → Bool
  | .native | .metadata | .failing _ | .attempted _ | .onConnected | .initTransactions | .onConnectedSettled _ =>
    true
  | _ => false

def Phase.resting : Phase → Bool
  | .idle | .settled => true
  | _ => false

theorem Phase.not_rests {s : State} {ph : Phase} (hp : s.phase = ph) (h : ph.resting = false) : ¬ s.Rests := by
  rintro (h' | h') <;> rw [← hp, h'] at h <;> cases h

def Fresh (c : Option Client) : Prop := ∀ x ∈ c, x.unsubscribes = 0 ∧ x.disconnects = 0

theorem Fresh.map {c : Option Client} (h : Fresh c) {f : Client → Client}
    (hf : ∀ x, (f x).unsubscribes = x.unsubscribes ∧ (f x).disconnects = x.disconnects) : Fresh (c.map f) := by
  intro x hx
  obtain ⟨y, hy, rfl⟩ := Option.map_eq_some_iff.mp hx
  rw [(hf y).1, (hf y).2]
  exact h y hy

def Client.Once (c : Client) : Prop := c.unsubscribes ≤ 1 ∧ c.disconnects ≤ 1

structure Once (s : State) : Prop where
  alone : ∀ (i j : Nat) (d d' : Disconnect), s.disconnects[i]? = some d → s.disconnects[j]? = some d' →
    d.phase.active = true → d'.phase.active = true → i = j
  locking : ∀ d ∈ s.disconnects, d.phase.locking = true → s.status = .connected
  active : ∀ d ∈ s.disconnects, d.phase.active = true → Fresh s.internalClient
  connected : s.Rests → s.status = .connected → Fresh s.internalClient
  attempting : s.phase.attempting = true → Fresh s.internalClient
  once : ∀ c ∈ s.clients, c.Once

theorem Inv.rests_of_active {s : State} (hi : Inv s) {d : Disconnect} (hd : d ∈ s.disconnects)
    (ha : d.phase.active = true) : s.Rests := by
  have hh := hi.calls d hd
  cases hp : d.phase with
  | lock j => rw [hp] at hh; exact hh.1
  | written => rw [hp] at hh; exact hh.1
  | _ => rw [hp] at ha; cases ha

theorem once_map {s : State} (h : ∀ c ∈ s.clients, c.Once) {f : Client → Client} (hf : ∀ c, c.Once → (f c).Once) :
    ∀ c ∈ (s.setClient f).clients, c.Once := by
  intro c hc
  rcases List.mem_append.mp hc with hc | hc
  · exact h c (List.mem_append_left _ hc)
  · obtain ⟨x, hx, rfl⟩ := Option.map_eq_some_iff.mp (Option.mem_toList.mp hc)
    exact hf x (h x (List.mem_append_right _ (Option.mem_toList.mpr hx)))

/-- The counts after the only calls of a client that was not given up. -/
theorem once_fresh {s : State} (h : ∀ c ∈ s.clients, c.Once) (hfresh : Fresh s.internalClient) {f : Client → Client}
    (hf : ∀ c : Client, c.unsubscribes = 0 → c.disconnects = 0 → (f c).Once) : ∀ c ∈ (s.setClient f).clients,
      c.Once := by
  intro c hc
  rcases List.mem_append.mp hc with hc | hc
  · exact h c (List.mem_append_left _ hc)
  · obtain ⟨x, hx, rfl⟩ := Option.map_eq_some_iff.mp (Option.mem_toList.mp hc)
    exact hf x (hfresh x hx).1 (hfresh x hx).2

namespace Once

variable {cfg : Config} {s t : State}

theorem of_none_active (hno : ∀ d ∈ t.disconnects, ¬ d.phase.active = true)
    (hconn : t.Rests → t.status = .connected → Fresh t.internalClient)
    (hatt : t.phase.attempting = true → Fresh t.internalClient) (honce : ∀ c ∈ t.clients, c.Once) : Once t := by
  refine ⟨?_, ?_, ?_, hconn, hatt, honce⟩
  · intro i j d d' hi _ ha _
    exact absurd ha (hno d (List.mem_of_getElem? hi))
  · intro d hm hl
    exact absurd (DisconnectPhase.active_of_locking hl) (hno d hm)
  · intro d hm ha
    exact absurd ha (hno d hm)

theorem of_loop (hi : Inv s) (hr : ¬ s.Rests) (hd : t.disconnects = s.disconnects)
    (hconn : t.Rests → t.status = .connected → Fresh t.internalClient)
    (hatt : t.phase.attempting = true → Fresh t.internalClient) (honce : ∀ c ∈ t.clients, c.Once) : Once t := by
  refine of_none_active (fun d hm ha => ?_) hconn hatt honce
  rw [hd] at hm
  exact hr (hi.rests_of_active hm ha)

theorem onward (hi : Inv s) {ph : Phase} (hp : s.phase = ph) (hr : ph.resting = false)
    (hd : t.disconnects = s.disconnects) (hr' : t.phase.resting = false)
    (hatt : t.phase.attempting = true → Fresh t.internalClient) (honce : ∀ c ∈ t.clients, c.Once) : Once t :=
  of_loop hi (Phase.not_rests hp hr) hd (fun h => absurd h (Phase.not_rests rfl hr')) hatt honce

theorem afterAttempt (hi : Inv s) (hr : ¬ s.Rests) (hfresh : Fresh s.internalClient)
    (honce : ∀ c ∈ s.clients, c.Once)
    (e : Option Failure) {u : State} (hu : u = { s with status := u.status }) : Once (u.afterAttempt e) := by
  have hcl : u.internalClient = s.internalClient := by rw [hu]
  have hab : u.abandoned = s.abandoned := by rw [hu]
  have hd : u.disconnects = s.disconnects := by rw [hu]
  have honce' : ∀ c ∈ u.clients, c.Once := by unfold State.clients; rw [hcl, hab]; exact honce
  rw [← hcl] at hfresh
  unfold State.afterAttempt
  simp only
  split_ifs
  · exact of_loop hi hr hd (fun _ _ => hfresh) (fun h => by cases h) honce'
  · unfold State.teardownFailedClient
    split_ifs
    · exact of_loop hi hr hd (fun h => absurd h (Phase.not_rests rfl rfl)) (fun h => by cases h)
        (once_fresh honce' hfresh fun c h₁ h₂ => by simp [Client.Once, Client.disconnect, h₁, h₂])
    · exact of_loop hi hr hd (fun h => absurd h (Phase.not_rests rfl rfl)) (fun h => by cases h) honce'

theorem moved (ho : Once s) (hi : Inv s) (h : Moved cfg s t) : Once t := by
  cases h with
  | began hp => exact onward hi hp rfl rfl rfl (fun h => by cases h) ho.once
  | configThrew hp =>
    refine of_loop hi (Phase.not_rests hp rfl) rfl (fun _ hst => ?_) (fun h => by cases h) ho.once
    have hs := hi.clients.stage
    unfold State.Staged at hs
    rw [hp] at hs
    rw [show s.status = .connected from hst] at hs
    cases hs.2.1
  | resolverThrew hp => exact onward hi hp rfl rfl rfl (fun h => by cases h) ho.once
  | built hp =>
    have hfresh : Fresh (s.build cfg).internalClient := by
      intro x hx
      obtain rfl := Option.some.inj hx
      exact ⟨rfl, rfl⟩
    refine onward hi hp rfl rfl rfl (fun _ => hfresh) ?_
    intro c hc
    rcases List.mem_append.mp hc with hc | hc
    · exact ho.once c hc
    · obtain ⟨h₁, h₂⟩ := hfresh c (Option.mem_toList.mp hc)
      exact ⟨by omega, by omega⟩
  | buildThrew hp => exact onward hi hp rfl rfl rfl (fun h => by cases h) ho.once
  | native hp =>
    have hfresh := ho.attempting (by rw [hp]; rfl)
    exact onward hi hp rfl rfl rfl (fun _ => hfresh.map fun _ => ⟨rfl, rfl⟩) (once_map ho.once fun _ h => h)
  | metadataThrew hp e =>
    have hfresh := ho.attempting (by rw [hp]; rfl)
    exact onward hi hp rfl rfl rfl (fun _ => hfresh.map fun _ => ⟨rfl, rfl⟩) (once_map ho.once fun _ h => h)
  | connected hp =>
    have hatt : s.phase.attempting = true := by rcases hp with hp | hp | ⟨e, hp⟩ <;> rw [hp] <;> rfl
    have hr : ¬ s.Rests := by rintro (h | h) <;> rw [h] at hatt <;> cases hatt
    exact of_loop hi hr rfl (fun h => absurd h (Phase.not_rests rfl rfl))
      (fun _ => (ho.attempting hatt).map fun _ => ⟨rfl, rfl⟩) (once_map ho.once fun _ h => h)
  | attempted hp =>
    have hfresh := ho.attempting (by rw [hp]; rfl)
    have hr := Phase.not_rests hp rfl
    unfold State.attempted
    split_ifs
    · cases cfg.kind with
      | producer _ => exact onward hi hp rfl rfl rfl (fun _ => hfresh) ho.once
      | consumer => exact afterAttempt hi hr hfresh ho.once none rfl
    · exact afterAttempt hi hr hfresh ho.once _ rfl
  | onConnected hp =>
    have hfresh := ho.attempting (by rw [hp]; rfl)
    unfold State.onConnected
    split_ifs
    · exact onward hi hp rfl rfl rfl (fun _ => hfresh) ho.once
    · exact onward hi hp rfl rfl rfl (fun _ => hfresh) ho.once
  | transactions hp e =>
    have hfresh := ho.attempting (by rw [hp]; rfl)
    exact onward hi hp rfl rfl rfl (fun _ => hfresh) ho.once
  | onConnectedSettled hp =>
    exact afterAttempt hi (Phase.not_rests hp rfl) (ho.attempting (by rw [hp]; rfl)) ho.once _ rfl
  | torn hp _ => exact onward hi hp rfl rfl rfl (fun h => by cases h) (once_map ho.once fun _ h => h)
  | notTorn hp _ => exact onward hi hp rfl rfl rfl (fun h => by cases h) ho.once
  | tornDown hp =>
    unfold State.tornDown
    split_ifs <;> exact onward hi hp rfl rfl rfl (fun h => by cases h) ho.once
  | backedOff hp =>
    unfold State.backedOff
    split_ifs <;> exact onward hi hp rfl rfl rfl (fun h => by cases h) ho.once
  | serdesClosed hp =>
    have hs := hi.clients.stage
    unfold State.Staged at hs
    refine of_loop hi ?_ rfl (fun _ hst => ?_) (fun h => by cases h) ho.once
    · rcases hp with hp | hp | hp <;> exact Phase.not_rests hp rfl
    · rcases hp with hp | hp | hp <;> rw [hp, show s.status = .connected from hst] at hs <;> cases hs.2.1
  | settled hp =>
    exact ⟨ho.alone, ho.locking, ho.active, fun _ => ho.connected (.inr hp), fun h => (by cases h), ho.once⟩

/-- Neither the clients nor the state change, and no call becomes active. -/
theorem quiet (ho : Once s) (hst : t.status = s.status) (hc : t.internalClient = s.internalClient)
    (hab : t.abandoned = s.abandoned) (hp : t.phase = s.phase)
    (hd : ∀ (i : Nat) (d : Disconnect), t.disconnects[i]? = some d → d.phase.active = true →
      s.disconnects[i]? = some d) : Once t := by
  have hmem : ∀ d ∈ t.disconnects, d.phase.active = true → d ∈ s.disconnects := by
    intro d hm ha
    obtain ⟨i, hget⟩ := List.mem_iff_getElem?.mp hm
    exact List.mem_of_getElem? (hd i d hget ha)
  refine ⟨?_, ?_, ?_, ?_, ?_, ?_⟩
  · intro i j d d' hi hj ha ha'
    exact ho.alone i j d d' (hd i d hi ha) (hd j d' hj ha') ha ha'
  · intro d hm h
    rw [hst]
    exact ho.locking d (hmem d hm (DisconnectPhase.active_of_locking h)) h
  · intro d hm ha
    rw [hc]
    exact ho.active d (hmem d hm ha) ha
  · intro hr h
    rw [hc]
    unfold State.Rests at hr
    rw [hp] at hr
    exact ho.connected hr (hst ▸ h)
  · intro h
    rw [hc]
    exact ho.attempting (hp ▸ h)
  · unfold State.clients
    rw [hc, hab]
    exact ho.once

theorem connect (ho : Once s) : Once s.connect := by
  unfold State.connect
  split_ifs
  · exact ho
  · exact ho
  · refine ⟨ho.alone, ho.locking, ho.active, fun h => ?_, fun h => (by cases h), ho.once⟩
    exact absurd h (Phase.not_rests rfl rfl)

theorem called (ho : Once s) (hi : Inv s) (hk : cfg.kind = .consumer)
    (hno : ∀ d ∈ s.disconnects, d.phase.locking = false) (h : Called cfg s t) : Once t := by
  have hadd : ∀ (u : State) (ph : DisconnectPhase) (at_ : Status), u.disconnects = s.disconnects →
    ph.active = false →
      ∀ (i : Nat) (d : Disconnect), (u.addDisconnect ph at_).disconnects[i]? = some d → d.phase.active = true →
        s.disconnects[i]? = some d := by
    intro u ph at_ hu hph i d hget ha
    have hget : (u.disconnects ++ [⟨ph, u.connects, u.phase, at_⟩])[i]? = some d := hget
    rw [hu, List.getElem?_append] at hget
    split_ifs at hget
    · exact hget
    · obtain rfl := List.mem_singleton.mp (List.mem_of_getElem? hget)
      rw [hph] at ha; cases ha
  cases h with
  | resolved h => exact ho.quiet rfl rfl rfl rfl (hadd s _ _ rfl rfl)
  | waits hst ha =>
    exact ho.quiet rfl rfl rfl rfl
      (hadd { s with connectAbort := some true, log := s.log ++ [Note.aborted] } _ _ rfl rfl)
  | closes hk' => exact absurd hk hk'
  | flushThrew hk' => exact absurd hk hk'
  | locks _ hst ha he lock started index =>
    obtain ⟨hr, hrest⟩ := Stage.outside hi.clients.stage ha hst
    have hcon : s.status = .connected := by
      rcases hrest with ⟨h | h, _⟩ | ⟨h | h, _⟩
      · exact absurd h hst
      · rw [h] at he; cases he
      · exact h
      · rw [h] at he; cases he
    have hfresh := ho.connected hr hcon
    have hold : ∀ d ∈ s.disconnects, d.phase.active = false := by
      intro d hm
      cases hp : d.phase with
      | lock j =>
        have := hno d hm
        rw [hp] at this; cases this
      | written =>
        have hh := hi.calls d hm
        rw [hp] at hh
        rw [show _ = true from hh.2] at he; cases he
      | _ => rfl
    have hlast : ∀ (i : Nat) (d : Disconnect), (s.disconnects ++
        [⟨.lock index, s.connects, s.phase, s.status⟩])[i]? = some d → d.phase.active = true →
          i = s.disconnects.length := by
      intro i d hget ha
      rw [List.getElem?_append] at hget
      split_ifs at hget with hlt
      · rw [hold d (List.mem_of_getElem? hget)] at ha; cases ha
      · have := (List.getElem?_eq_some_iff.mp hget).1
        simp only [List.length_singleton] at this
        omega
    refine ⟨?_, fun _ _ _ => hcon, fun _ _ _ => hfresh, fun _ _ => hfresh, ho.attempting, ho.once⟩
    intro i j d d' hi' hj ha ha'
    exact (hlast i d hi' ha).trans (hlast j d' hj ha').symm

theorem not_attempting (hr : s.Rests) : ¬ s.phase.attempting = true := by
  intro h
  rcases hr with hr | hr <;> rw [hr] at h <;> cases h

/-- A call becomes inactive: the active ones are others, as they were. -/
theorem active_of_setDisconnect {u : State} {i j : Nat} {d x : Disconnect} {ph : DisconnectPhase}
    (hu : u.disconnects = s.disconnects) (hph : ph.active = false)
    (hget : (u.setDisconnect i d ph).disconnects[j]? = some x) (ha : x.phase.active = true) :
    s.disconnects[j]? = some x ∧ j ≠ i := by
  have hget : (u.disconnects.set i { d with phase := ph })[j]? = some x := hget
  rw [hu, List.getElem?_set] at hget
  split_ifs at hget with h₁ h₂
  · obtain rfl := Option.some.inj hget
    rw [show _ = false from hph] at ha; cases ha
  · exact ⟨hget, Ne.symm h₁⟩

/-- The only active call becomes inactive. -/
theorem ended (ho : Once s) {u : State} {i : Nat} {d : Disconnect} {ph : DisconnectPhase}
    (hd : s.disconnects[i]? = some d) (hda : d.phase.active = true) (hu : u.disconnects = s.disconnects)
    (hph : ph.active = false) (hst : u.status ≠ .connected) (hp : u.phase = s.phase) (hr : s.Rests)
    (honce : ∀ c ∈ u.clients, c.Once) : Once (u.setDisconnect i d ph) := by
  refine of_none_active (fun x hx ha => ?_) (fun _ h => absurd h hst) (fun h => ?_) honce
  · obtain ⟨j, hget⟩ := List.mem_iff_getElem?.mp hx
    obtain ⟨hj, hne⟩ := active_of_setDisconnect hu hph hget ha
    exact hne (ho.alone j i x d hj hd ha hda)
  · have h : u.phase.attempting = true := h
    exact absurd (hp ▸ h) (not_attempting hr)

/-- The active call goes on, and stays the only one. -/
theorem wrote (ho : Once s) (hi : Inv s) {i : Nat} {d : Disconnect} (hd : s.disconnects[i]? = some d)
    (hda : d.phase.active = true) (lock : Lock.State) :
    Once ({ s with lock, status := .disconnecting }.setDisconnect i d .written) := by
  have hfresh := ho.active d (List.mem_of_getElem? hd) hda
  have hone : ∀ (j : Nat) (x : Disconnect), (s.disconnects.set i { d with phase := .written })[j]? = some x →
      x.phase.active = true → j = i := by
    intro j x hget ha
    rw [List.getElem?_set] at hget
    split_ifs at hget with h₁ h₂
    · exact h₁.symm
    · exact ho.alone j i x d hget hd ha hda
  refine ⟨?_, ?_, fun _ _ _ => hfresh, fun _ h => (by cases h), fun h => ?_, ho.once⟩
  · intro a b x y hx hy ha hb
    exact (hone a x hx ha).trans (hone b y hy hb).symm
  · intro x hx hl
    obtain ⟨j, hget⟩ := List.mem_iff_getElem?.mp hx
    have hget : (s.disconnects.set i { d with phase := .written })[j]? = some x := hget
    have hxa := DisconnectPhase.active_of_locking hl
    obtain rfl := hone j x hget hxa
    rw [List.getElem?_set_self (List.getElem?_eq_some_iff.mp hd).1] at hget
    obtain rfl := Option.some.inj hget
    cases hl
  · exact absurd h (not_attempting (hi.rests_of_active (List.mem_of_getElem? hd) hda))

/-- The client is closed: a call that is active meanwhile has written the state. -/
theorem closed (ho : Once s) {i : Nat} {d : Disconnect} (hr : s.Rests) (hst : s.status.ended = true) :
    Once ({ s.setClient Client.disconnected with status := .disconnected }.setDisconnect i d (.serdes true)) := by
  have hsame : ∀ (j : Nat) (x : Disconnect), (State.setDisconnect { s.setClient Client.disconnected with
      status := .disconnected } i d (.serdes true)).disconnects[j]? = some x → x.phase.active = true →
        s.disconnects[j]? = some x := fun j x hget ha => (active_of_setDisconnect rfl rfl hget ha).1
  refine ⟨?_, ?_, ?_, fun _ h => (by cases h), fun h => absurd h (not_attempting hr), once_map ho.once fun _ h => h⟩
  · intro a b x y hx hy ha hb
    exact ho.alone a b x y (hsame a x hx ha) (hsame b y hy hb) ha hb
  · intro x hx hl
    obtain ⟨j, hget⟩ := List.mem_iff_getElem?.mp hx
    have hmem := List.mem_of_getElem? (hsame j x hget (DisconnectPhase.active_of_locking hl))
    rw [ho.locking x hmem hl] at hst
    cases hst
  · intro x hx ha
    obtain ⟨j, hget⟩ := List.mem_iff_getElem?.mp hx
    have hmem := List.mem_of_getElem? (hsame j x hget ha)
    exact (ho.active x hmem ha).map fun _ => ⟨rfl, rfl⟩

theorem answered (ho : Once s) (hi : Inv s) {i : Nat} {d : Disconnect} (hd : s.disconnects[i]? = some d)
    (h : Answered s i d t) : Once t := by
  have hm := List.mem_of_getElem? hd
  have hinactive : ∀ ph, ph.active = false → Once (s.setDisconnect i d ph) := fun ph hph =>
    ho.quiet rfl rfl rfl rfl fun j x hj ha => (active_of_setDisconnect rfl hph hj ha).1
  cases h with
  | waited hp h => exact hinactive .resolved rfl
  | serdesClosed hp => exact hinactive .rejected rfl
  | serdesResolved hp => exact hinactive .resolved rfl
  | wrote hp lock => exact ho.wrote hi hd (by rw [hp]; rfl) lock
  | unsubscribed hp ht =>
    have hda : d.phase.active = true := by rw [hp]; rfl
    have hfresh := ho.active d hm hda
    have hh := hi.calls d hm
    rw [hp] at hh
    obtain ⟨hr, hst⟩ := hh
    subst ht
    refine ho.ended hd hda rfl ?_ (fun e => ?_) rfl hr ?_
    · unfold State.closeClient
      split_ifs <;> rfl
    · rw [show s.status = .connected from e] at hst
      cases hst
    · have := once_fresh ho.once hfresh
        (f := fun c => ({ c with unsubscribes := c.unsubscribes + 1 } : Client).disconnect)
        fun c h₁ h₂ => by simp [Client.Once, Client.disconnect, h₁, h₂]
      show ∀ c ∈ s.abandoned ++ ((s.internalClient.map _).map Client.disconnect).toList, c.Once
      rw [Option.map_map]
      exact this
  | unsubscribeThrew hp =>
    have hda : d.phase.active = true := by rw [hp]; rfl
    have hfresh := ho.active d hm hda
    have hh := hi.calls d hm
    rw [hp] at hh
    obtain ⟨hr, hst⟩ := hh
    refine ho.ended hd hda rfl rfl (fun e => ?_) rfl hr ?_
    · rw [show s.status = .connected from e] at hst
      cases hst
    · exact once_fresh ho.once hfresh fun c h₁ h₂ => by simp [Client.Once, h₁, h₂]
  | closed hp =>
    have hh := hi.calls d hm
    rw [hp] at hh
    exact ho.closed hh.1 hh.2

end Once

/-- `disconnect` is not called while a call that has passed its check waits for the lock. -/
def patient (s : State) : Ev → Bool
  | .disconnect => s.disconnects.all fun d => !d.phase.locking
  | _ => true

theorem Once.step {cfg : Config} {s t : State} {e : Ev} (ho : Once s) (hi : Inv s) (hk : cfg.kind = .consumer)
    (hp : patient s e = true) (h : step cfg s e = some t) : Once t := by
  cases step_stepped h with
  | connect => exact ho.connect
  | moved h => exact ho.moved hi h
  | called h =>
    refine ho.called hi hk (fun d hd => ?_) h
    simpa using List.all_eq_true.mp hp d hd
  | answered hd h => exact ho.answered hi hd h
  | ran lock run => exact ho.quiet rfl rfl rfl rfl fun _ _ h _ => h

theorem Moved.disconnected {cfg : Config} {s t : State} (hc : Clients s) (hst : s.status = .disconnected)
    (h : Moved cfg s t) : t.status = .disconnected := by
  have hs := hc.stage
  unfold State.Staged at hs
  rw [hst] at hs
  have htry : ¬ Trying .disconnected := by rintro (h | h) <;> cases h
  have hdown : ¬ (Trying .disconnected ∨ Status.disconnected = .connected ∧ s.connectAbort = some true) := by
    rintro (h | h)
    · exact htry h
    · cases h.1
  cases h with
  | began hp => rw [hp] at hs; cases hs.2.1
  | configThrew hp => exact hst
  | resolverThrew hp => exact hst
  | built hp => rw [hp] at hs; exact absurd hs.2.1 htry
  | buildThrew hp => rw [hp] at hs; exact absurd hs.2.1 htry
  | native hp => exact hst
  | metadataThrew hp e => exact hst
  | connected hp => exact hst
  | attempted hp => rw [hp] at hs; exact absurd hs.2.1 htry
  | onConnected hp => rw [hp] at hs; exact absurd hs.2.1 htry
  | transactions hp e => rw [hp] at hs; exact absurd hs.2.1 htry
  | onConnectedSettled hp =>
    rw [hp] at hs
    obtain ⟨_, h, _⟩ := hs
    split_ifs at h
    exact absurd h htry
  | torn hp _ => exact hst
  | notTorn hp _ => exact hst
  | tornDown hp => rw [hp] at hs; exact absurd hs.2.1 hdown
  | backedOff hp => rw [hp] at hs; exact absurd hs.2.1 htry
  | serdesClosed hp => exact hst
  | settled hp => exact hst

theorem Once.disconnected {cfg : Config} {s t : State} {e : Ev} (ho : Once s) (hi : Inv s)
    (h : Connect.step cfg s e = some t)
    (hst : s.status = .disconnected) : t.status = .disconnected := by
  have hend : s.status.ended = true := by rw [hst]; rfl
  cases step_stepped h with
  | connect =>
    unfold State.connect
    split_ifs with _ h
    · exact hst
    · exact hst
    · rw [hst] at h; exact absurd (by simp) h
  | moved h => exact h.disconnected hi.clients hst
  | called h =>
    cases h with
    | closes _ _ _ he => rw [hend] at he; cases he
    | flushThrew _ _ _ he => rw [hend] at he; cases he
    | _ => exact hst
  | answered hd h =>
    cases h with
    | wrote hp lock =>
      have := ho.locking _ (List.mem_of_getElem? hd) (by rw [hp]; rfl)
      rw [hst] at this; cases this
    | unsubscribed hp ht => subst ht; exact hst
    | closed hp => rfl
    | _ => exact hst
  | ran lock run => exact hst

/-- The client of a consumer is unsubscribed and disconnected at most once, and `DISCONNECTED` is never left,
in a run in which `disconnect` is not called while an earlier call waits for the lock. -/
theorem disconnect_once {retries : Nat} {es : List Ev} {s : State}
    (hr : (lts ⟨.consumer, retries⟩).RunWhere (fun s e => patient s e = true) es s) :
    (∀ c ∈ s.clients, c.unsubscribes ≤ 1 ∧ c.disconnects ≤ 1) ∧
      ∀ e t, (lts ⟨.consumer, retries⟩).step s e = some t → s.status = .disconnected →
        t.status = .disconnected := by
  obtain ⟨hi, ho⟩ : Inv s ∧ Once s := by
    refine Lts.RunWhere.inv (I := fun s => Inv s ∧ Once s) ⟨inv_init _, ?_⟩ ?_ hr
    · refine ⟨fun i j d d' h => ?_, fun d h => (by cases h), fun d h => (by cases h), fun _ h => (by cases h),
        fun h => (by cases h), fun c h => by cases h⟩
      cases h
    · intro s e t ⟨hi, ho⟩ hp h
      exact ⟨hi.step h, ho.step hi rfl hp h⟩
  exact ⟨ho.once, fun e t h hst => ho.disconnected hi h hst⟩

def running : List Ev :=
  [.connect, .config .ok, .build true, .native none, .metadata none, .attempted, .settle, .run]

def disconnectedAfter : List Ev := running ++ [.disconnect, .runEnded, .resume 1, .write 0,
    .unsubscribe 0 true, .disconnect,
  .closed 0, .closedSerdes 0 true]

theorem disconnect_once_running : ∃ s, (lts ⟨.consumer, 5⟩).RunWhere (fun s e => patient s e = true)
    disconnectedAfter s ∧
    s.status = .disconnected ∧ s.disconnects.length = 2 ∧ ∀ c ∈ s.clients, c.unsubscribes ≤ 1 ∧
      c.disconnects ≤ 1 := by
  have hs : ((lts ⟨.consumer, 5⟩).exec patient (lts ⟨.consumer, 5⟩).init disconnectedAfter).map
      (fun s => (s.status, s.disconnects.length)) = some (.disconnected, 2) := by
    decide +kernel
  obtain ⟨s, hs, hx⟩ := Option.map_eq_some_iff.mp hs
  simp only [Prod.mk.injEq] at hx
  have hr := Lts.RunWhere.of_exec .nil hs
  exact ⟨s, hr, hx.1, hx.2, (disconnect_once hr).1⟩

/-- Two calls before the run loop releases the lock: both work on the client. -/
theorem disconnect_twice : ∃ s, (lts ⟨.consumer, 5⟩).Run
    (running ++ [.disconnect, .disconnect, .runEnded, .resume 1, .resume 2,
    .write 0, .resume 2, .unsubscribe 0 true, .write 1, .unsubscribe 1 true]) s ∧
    s.clients = [⟨false, true, true, 2, 2⟩] := by
  have hs : ((lts ⟨.consumer, 5⟩).exec (fun _ _ => true) (lts ⟨.consumer, 5⟩).init
    (running ++ [.disconnect, .disconnect,
      .runEnded, .resume 1, .resume 2, .write 0, .resume 2, .unsubscribe 0 true, .write 1,
        .unsubscribe 1 true])).map
      State.clients = some [⟨false, true, true, 2, 2⟩] := by
    decide +kernel
  obtain ⟨s, hs, hx⟩ := Option.map_eq_some_iff.mp hs
  exact ⟨s, Lts.Run.of_exec hs, hx⟩

end Connect

end ConfluentKafka
