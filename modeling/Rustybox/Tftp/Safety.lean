import Rustybox.Tftp.Moves

/-!
# Safety of a transfer

The sender is never more than one block ahead of the receiver, and never behind it.  Every packet in
the network is about a block that its sender has reached, so its number tells which block it is.
The receiver is safe in every run; the sender is, as long as there is no false success.
-/

namespace Rustybox.Tftp

/-! ### The invariant -/

/-- The block that a party is at. -/
def State.blocks (s : State) (put : Bool) : ℕ :=
  match s.party put with
  | some p => p.blocks
  | none => 0

/-- **What is true of the two parties and the network.** -/
structure Inv (t : Transfer) (s : State) : Prop where
  valid : ∀ put p, s.party put = some p → p.Valid t ∧ p.put = put
  net : ∀ m ∈ s.net, m.packet.Fits t (!m.toSender) m.block ∧ m.block ≤ s.blocks (!m.toSender)
  order : s.blocks false ≤ s.blocks true ∧ s.blocks true ≤ s.blocks false + 1
  server : ∀ p, s.party (!t.upload) = some p → p.expectOack = false
  early : t.AcksOptions → ∀ p, s.party t.upload = some p → p.expectOack = true →
    (∀ m ∈ s.net, ¬ m.packet.IsBlock) ∧ ∀ put q, s.party put = some q → ¬ q.xbuf.IsBlock

section
variable {t : Transfer} {s : State} {put : Bool} {r : Reaction}

theorem not_eq_of_ne {role role' : Bool} (h : role ≠ role') : (!role') = role :=
  (Bool.eq_not_of_ne h).symm

theorem party_act_self (s : State) (put : Bool) (r : Reaction) :
    (s.act put r).party put = some r.1 := by
  cases put
  · rfl
  · rfl

theorem party_act_other {role : Bool} (h : role ≠ put) : (s.act put r).party role = s.party role := by
  cases put
  · cases role
    · exact absurd rfl h
    · rfl
  · cases role
    · rfl
    · exact absurd rfl h

theorem blocks_of_party {p : Party} (h : s.party put = some p) : s.blocks put = p.blocks := by
  rw [State.blocks, h]

theorem blocks_act_self (s : State) (put : Bool) (r : Reaction) :
    (s.act put r).blocks put = r.1.blocks := blocks_of_party (party_act_self s put r)

theorem blocks_act_other {role : Bool} (h : role ≠ put) :
    (s.act put r).blocks role = s.blocks role := by
  rw [State.blocks, State.blocks, party_act_other h]

theorem mem_net_act {m : Sent} (h : m ∈ (s.act put r).net) :
    m ∈ s.net ∨ ∃ q ∈ r.2, m = ⟨!put, q, r.1.blocks⟩ := by
  rcases List.mem_append.mp h with h | h
  · exact Or.inl h
  · obtain ⟨q, hq, rfl⟩ := List.mem_map.mp h
    exact Or.inr ⟨q, hq, rfl⟩

theorem net_act (hinv : Inv t s) (hblocks : s.blocks put ≤ r.1.blocks)
    (hsent : ∀ q ∈ r.2, q.Fits t put r.1.blocks) :
    ∀ m ∈ (s.act put r).net, m.packet.Fits t (!m.toSender) m.block ∧
      m.block ≤ (s.act put r).blocks (!m.toSender) := by
  intro m hm
  rcases mem_net_act hm with hm | ⟨q, hq, rfl⟩
  · obtain ⟨hfits, hle⟩ := hinv.net m hm
    refine ⟨hfits, ?_⟩
    by_cases hrole : (!m.toSender) = put
    · rw [hrole, blocks_act_self]
      rw [hrole] at hle
      exact Nat.le_trans hle hblocks
    · rw [blocks_act_other hrole]
      exact hle
  · dsimp only
    rw [Bool.not_not, blocks_act_self]
    exact ⟨hsent q hq, Nat.le_refl _⟩

theorem order_act (hinv : Inv t s)
    (hnext : r.1.blocks = s.blocks put ∨ r.1.blocks = s.blocks put + 1 ∧
      if put then s.blocks true ≤ s.blocks false else s.blocks false + 1 ≤ s.blocks true) :
    (s.act put r).blocks false ≤ (s.act put r).blocks true ∧
      (s.act put r).blocks true ≤ (s.act put r).blocks false + 1 := by
  obtain ⟨hle, hlt⟩ := hinv.order
  cases put with
  | false =>
    rw [blocks_act_self, blocks_act_other (by decide)]
    rcases hnext with heq | ⟨heq, hmore⟩
    · rw [heq]
      exact ⟨hle, hlt⟩
    · rw [if_neg (by decide)] at hmore
      omega
  | true =>
    rw [blocks_act_self, blocks_act_other (by decide)]
    rcases hnext with heq | ⟨heq, hmore⟩
    · rw [heq]
      exact ⟨hle, hlt⟩
    · rw [if_pos rfl] at hmore
      omega

/-- **A valid reaction** keeps the invariant. -/
theorem inv_act {p : Party} {cause : Option Packet} (hinv : Inv t s) (hp : s.party put = some p)
    (hr : Reacts t p cause r) (hcause : ∀ q, cause = some q → ∃ m ∈ s.net, m.packet = q)
    (hnext : r.1.blocks = p.blocks + 1 →
      if put then s.blocks true ≤ s.blocks false else s.blocks false + 1 ≤ s.blocks true) :
    Inv t (s.act put r) := by
  have hrole := (hinv.valid put p hp).2
  have hat := blocks_of_party hp
  have hgrown : s.blocks put ≤ r.1.blocks := by
    rcases hr.blocks with heq | ⟨heq, -⟩
    · omega
    · omega
  have hnotBlock : t.AcksOptions → ∀ q, s.party t.upload = some q → q.expectOack = true →
      ¬ p.xbuf.IsBlock ∧ ∀ q, cause = some q → ¬ q.IsBlock := by
    intro hmode q hq hexpect
    obtain ⟨hnet, hxbuf⟩ := hinv.early hmode q hq hexpect
    refine ⟨hxbuf put p hp, fun q hq => ?_⟩
    obtain ⟨m, hm, rfl⟩ := hcause q hq
    exact hnet m hm
  refine ⟨fun role q hq => ?_, net_act hinv hgrown (hrole ▸ hr.sent), order_act hinv ?_,
    fun q hq => ?_, fun hmode q hq hexpect => ?_⟩
  · by_cases heq : role = put
    · rw [heq, party_act_self] at hq
      cases hq
      exact ⟨hr.valid, hr.put.trans (hrole.trans heq.symm)⟩
    · rw [party_act_other heq] at hq
      exact hinv.valid role q hq
  · rw [hat]
    exact hr.blocks.imp id fun hgo => ⟨hgo.1, hnext hgo.1⟩
  · by_cases heq : (!t.upload) = put
    · rw [heq, party_act_self] at hq
      cases hq
      rw [← Bool.not_eq_true]
      intro he
      have := hinv.server p (heq ▸ hp)
      rw [(hr.expecting he).1] at this
      cases this
    · rw [party_act_other heq] at hq
      exact hinv.server q hq
  · by_cases heq : t.upload = put
    · -- the client has got no block yet
      rw [heq, party_act_self] at hq
      cases hq
      obtain ⟨he, hx, hall⟩ := hr.expecting hexpect
      obtain ⟨hnet, hxbuf⟩ := hinv.early hmode p (heq ▸ hp) he
      refine ⟨fun m hm hblock => ?_, fun role q hq hblock => ?_⟩
      · rcases mem_net_act hm with hm | ⟨q, hq, rfl⟩
        · exact hnet m hm hblock
        · have := hall q hq hblock
          rw [this] at hblock
          exact hxbuf put p hp hblock
      · by_cases hrole' : role = put
        · rw [hrole', party_act_self] at hq
          cases hq
          rw [hx] at hblock
          exact hxbuf put p hp hblock
        · rw [party_act_other hrole'] at hq
          exact hxbuf role q hq hblock
    · -- the server has got no block, and expects no OACK
      rw [party_act_other heq] at hq
      obtain ⟨hnet, hxbuf⟩ := hinv.early hmode q hq hexpect
      obtain ⟨hpx, hcx⟩ := hnotBlock hmode q hq hexpect
      have hserver : p.expectOack = false := by
        refine hinv.server p ?_
        rw [not_eq_of_ne (Ne.symm heq)]
        exact hp
      have hnone :
          ¬ (p.xbuf.IsBlock ∨ (∃ q, cause = some q ∧ q.IsBlock) ∨ p.expectOack = true) := by
        rintro (hb | ⟨q, hq, hb⟩ | he)
        · exact hpx hb
        · exact hcx q hq hb
        · rw [hserver] at he
          cases he
      refine ⟨fun m hm hblock => ?_, fun role q hq hblock => ?_⟩
      · rcases mem_net_act hm with hm | ⟨q, hq, rfl⟩
        · exact hnet m hm hblock
        · exact hnone (hr.early q hq hblock)
      · by_cases hrole' : role = put
        · rw [hrole', party_act_self] at hq
          cases hq
          exact hnone (hr.buffered hblock)
        · rw [party_act_other hrole'] at hq
          exact hxbuf role q hq hblock

end

/-! ### Steps -/

section
variable {t : Transfer} {s s' : State}

/-- A move of a party that was started: it gets a packet of the net, or none. -/
def Moves (s : State) (ev : Event) (put : Bool) (p : Party) : Reaction → Prop :=
  fun r => match ev with
  | .start _ _ _ => False
  | .deliver role i io => role = put ∧ ∃ m, s.net[i]? = some m ∧ m.toSender = put ∧
      p.waitsFor ≤ m.block + 65535 ∧ r = p.receive io m.packet
  | .timeout role => role = put ∧ r = p.timeout
  | .pollFails role => role = put ∧ r = p.pollFails

/-- **What a step can do**: the server starts, or one of the parties moves. -/
theorem step_cases {ev : Event} (h : t.step s ev = some s') :
    (∃ i opens io write blksize tsize b k, ev = .start i opens io ∧ s.party (!t.upload) = none ∧
      s.net[i]? = some ⟨b, .request write blksize tsize, k⟩ ∧
      s' = s.act (!t.upload) (server write blksize tsize opens io t.file)) ∨
    ∃ put p r, s.party put = some p ∧ p.result = none ∧ Moves s ev put p r ∧ s' = s.act put r := by
  cases ev with
  | start i opens io =>
    rw [Transfer.step.eq_def] at h
    dsimp only at h
    split at h
    · rename_i b write blksize tsize k hparty hnet
      cases h
      exact Or.inl ⟨i, opens, io, write, blksize, tsize, b, k, rfl, hparty, hnet, rfl⟩
    · cases h
  | deliver put i io =>
    rw [Transfer.step.eq_def] at h
    dsimp only at h
    split at h
    · rename_i p m hparty hnet
      split at h
      · rename_i hok
        cases h
        exact Or.inr ⟨put, p, _, hparty, hok.1, ⟨rfl, m, hnet, hok.2.1, hok.2.2, rfl⟩, rfl⟩
      · cases h
    · cases h
  | timeout put =>
    rw [Transfer.step.eq_def] at h
    dsimp only at h
    split at h
    · rename_i p hparty
      split at h
      · rename_i hrunning
        cases h
        exact Or.inr ⟨put, p, _, hparty, hrunning, ⟨rfl, rfl⟩, rfl⟩
      · cases h
    · cases h
  | pollFails put =>
    rw [Transfer.step.eq_def] at h
    dsimp only at h
    split at h
    · rename_i p hparty
      split at h
      · rename_i hrunning
        cases h
        exact Or.inr ⟨put, p, _, hparty, hrunning, ⟨rfl, rfl⟩, rfl⟩
      · cases h
    · cases h

/-- A packet of the net is about a block that its addressee may wait for. -/
theorem block_le_waitsFor (hinv : Inv t s) {put : Bool} {p : Party} (hp : s.party put = some p)
    {m : Sent} (hm : m ∈ s.net) (hto : m.toSender = put) : m.block ≤ p.waitsFor := by
  have hle := (hinv.net m hm).2
  have hat := blocks_of_party hp
  have hrole := (hinv.valid put p hp).2
  obtain ⟨hle', hlt'⟩ := hinv.order
  rw [hto] at hle
  rw [Party.waitsFor, hrole]
  cases put with
  | true =>
    rw [if_pos rfl]
    rw [Bool.not_true] at hle
    omega
  | false =>
    rw [if_neg (by decide)]
    rw [Bool.not_false] at hle
    omega

/-- **What a party does with a packet of the net.** -/
theorem reacts_deliver (hinv : Inv t s) {put : Bool} {p : Party} (hp : s.party put = some p)
    (hrunning : p.result = none) {m : Sent} (hm : m ∈ s.net) (hto : m.toSender = put)
    (hage : p.waitsFor ≤ m.block + 65535) (io : Bool) :
    Reacts t p (some m.packet) (p.receive io m.packet) ∧
      Progress p m.block m.packet (p.receive io m.packet) := by
  obtain ⟨hvalid, hrole⟩ := hinv.valid put p hp
  have hclient : p.expectOack = true → put = t.upload := by
    intro he
    by_contra hne
    have hserver : (!t.upload) = put := not_eq_of_ne hne
    have := hinv.server p (hserver ▸ hp)
    rw [he] at this
    cases this
  refine reacts_receive io hvalid hrunning ?_ (block_le_waitsFor hinv hp hm hto) hage
    (fun he => hrole.trans (hclient he)) fun he hblock => ?_
  · rw [hrole, ← hto]
    exact (hinv.net m hm).1
  · by_contra hsize
    have hearly := hinv.early (Or.inl hsize) p (hclient he ▸ hp) he
    exact hearly.1 m hm hblock

theorem inv_move (hinv : Inv t s) {ev : Event} {put : Bool} {p : Party} {r : Reaction}
    (hp : s.party put = some p) (hrunning : p.result = none) (hmove : Moves s ev put p r) :
    Inv t (s.act put r) := by
  obtain ⟨hvalid, hrole⟩ := hinv.valid put p hp
  cases ev with
  | start i opens io => cases hmove
  | deliver role i io =>
    obtain ⟨-, m, hnet, hto, hage, rfl⟩ := hmove
    have hm := List.mem_of_getElem? hnet
    obtain ⟨hr, hprogress⟩ := reacts_deliver hinv hp hrunning hm hto hage io
    refine inv_act hinv hp hr (fun q hq => ⟨m, hm, Option.some.inj hq⟩) fun hnext => ?_
    have hle := (hinv.net m hm).2
    have hat := blocks_of_party hp
    rw [hto] at hle
    cases put with
    | true =>
      rw [if_pos rfl]
      rw [Bool.not_true] at hle
      rcases hprogress.next hnext with hk | ⟨-, hzero⟩
      · rw [Party.waitsFor, if_pos hrole] at hk
        omega
      · omega
    | false =>
      rw [if_neg (by decide)]
      rw [Bool.not_false] at hle
      rcases hprogress.next hnext with hk | ⟨hsender, -⟩
      · rw [Party.waitsFor, hrole, if_neg (by decide)] at hk
        omega
      · rw [hrole] at hsender
        cases hsender
  | timeout role =>
    obtain ⟨-, rfl⟩ := hmove
    have hr := reacts_timeout hvalid
    refine inv_act hinv hp hr (fun q hq => by cases hq) fun hnext => ?_
    rcases hr.blocks with heq | ⟨-, hnone⟩
    · omega
    · exact absurd rfl hnone
  | pollFails role =>
    obtain ⟨-, rfl⟩ := hmove
    have hr : Reacts t p none p.pollFails := reacts_ret hvalid
    refine inv_act hinv hp hr (fun q hq => by cases hq) fun hnext => ?_
    rcases hr.blocks with heq | ⟨-, hnone⟩
    · omega
    · exact absurd rfl hnone

/-- **The server starts.** -/
theorem inv_start (hinv : Inv t s) {r : Reaction} (hnone : s.party (!t.upload) = none)
    (hr : Starts t r) : Inv t (s.act (!t.upload) r) := by
  have hzero : s.blocks (!t.upload) = 0 := by rw [State.blocks, hnone]
  have hother : t.upload ≠ !t.upload := by
    cases t.upload
    · decide
    · decide
  refine ⟨fun role q hq => ?_, net_act hinv (by omega) hr.sent, order_act hinv ?_, fun q hq => ?_,
    fun hmode q hq hexpect => ?_⟩
  · by_cases heq : role = !t.upload
    · rw [heq, party_act_self] at hq
      cases hq
      exact ⟨hr.valid, hr.put.trans heq.symm⟩
    · rw [party_act_other heq] at hq
      exact hinv.valid role q hq
  · rw [hzero]
    rcases hr.blocks with hb | ⟨hb, hup⟩
    · exact Or.inl hb
    · rw [hup, Bool.not_false] at hzero
      exact Or.inr ⟨hb, by rw [hup, Bool.not_false, if_pos rfl]; omega⟩
  · rw [party_act_self] at hq
    cases hq
    exact hr.expecting
  · rw [party_act_other hother] at hq
    obtain ⟨hnet, hxbuf⟩ := hinv.early hmode q hq hexpect
    obtain ⟨hx, hall⟩ := hr.early hmode
    refine ⟨fun m hm => ?_, fun role q hq => ?_⟩
    · rcases mem_net_act hm with hm | ⟨q, hq, rfl⟩
      · exact hnet m hm
      · exact hall q hq
    · by_cases hrole : role = !t.upload
      · rw [hrole, party_act_self] at hq
        cases hq
        exact hx
      · rw [party_act_other hrole] at hq
        exact hxbuf role q hq

theorem starts_of_request (hinv : Inv t s) {i : ℕ} {b write opens io tsize : Bool}
    {blksize : Option ℕ} {k : ℕ} (hnet : s.net[i]? = some ⟨b, .request write blksize tsize, k⟩) :
    Starts t (server write blksize tsize opens io t.file) := by
  obtain ⟨-, rfl, rfl, rfl⟩ := (hinv.net _ (List.mem_of_getElem? hnet)).1
  exact starts_server t opens io

theorem inv_step (hinv : Inv t s) {ev : Event} (h : t.step s ev = some s') : Inv t s' := by
  rcases step_cases h with ⟨i, opens, io, write, blksize, tsize, b, k, -, hnone, hnet, rfl⟩ |
    ⟨put, p, r, hp, hrunning, hmove, rfl⟩
  · exact inv_start hinv hnone (starts_of_request hinv hnet)
  · exact inv_move hinv hp hrunning hmove

theorem inv_init (t : Transfer) : Inv t t.init := by
  have hempty : Inv t ⟨none, none, []⟩ := by
    have hnone : ∀ put, State.party ⟨none, none, []⟩ put = none := by
      intro put
      cases put
      · rfl
      · rfl
    refine ⟨fun put p hp => ?_, fun m hm => (by cases hm), by decide, fun p hp => ?_,
      fun _ p hp => ?_⟩
    · rw [hnone] at hp
      cases hp
    · rw [hnone] at hp
      cases hp
    · rw [hnone] at hp
      cases hp
  obtain ⟨hvalid, hput, hblocks, -, hxbuf, hsent⟩ := valid_client t
  have hzero : State.blocks ⟨none, none, []⟩ t.upload = 0 := by
    cases t.upload
    · rfl
    · rfl
  have hother : (!t.upload) ≠ t.upload := by
    cases t.upload
    · decide
    · decide
  have hnone : ∀ role, role ≠ t.upload → t.init.party role = none := by
    intro role hrole
    rw [Transfer.init, party_act_other hrole]
    cases role
    · rfl
    · rfl
  refine ⟨fun role q hq => ?_, ?_, ?_, fun q hq => ?_, fun _ q hq _ => ?_⟩
  · by_cases heq : role = t.upload
    · rw [heq, Transfer.init, party_act_self] at hq
      cases hq
      exact ⟨hvalid, hput.trans heq.symm⟩
    · rw [hnone role heq] at hq
      cases hq
  · exact net_act hempty (by omega) fun q hq => by rw [hblocks]; exact (hsent q hq).1
  · exact order_act hempty (Or.inl (hblocks.trans hzero.symm))
  · rw [hnone _ hother] at hq
    cases hq
  · refine ⟨fun m hm => ?_, fun role q hq => ?_⟩
    · rcases mem_net_act hm with hm | ⟨q, hq, rfl⟩
      · cases hm
      · exact (hsent q hq).2
    · by_cases heq : role = t.upload
      · rw [heq, Transfer.init, party_act_self] at hq
        cases hq
        exact hxbuf
      · rw [hnone role heq] at hq
        cases hq

/-! ### Success -/

theorem file_of_finished (hinv : Inv t s) {r : Party} (hr : s.receiver = some r)
    (hf : r.finished = true) : r.file = t.file ∧ r.result = some 0 := by
  obtain ⟨hvalid, hrole⟩ := hinv.valid false r hr
  have htotal := hvalid.finished.mp hf
  have hpos : 0 < r.blocks := htotal ▸ total_pos t
  have hb := hvalid.big hpos
  have hfile := hvalid.file
  rw [if_neg (by simp [hrole]), htotal, take_total (by omega)] at hfile
  exact ⟨hfile, hvalid.exited hrole hf⟩

/-- The sender has not succeeded before the receiver has the last block. -/
def SentAll (s : State) : Prop :=
  ∀ p, s.sender = some p → p.result = some 0 → ∃ r, s.receiver = some r ∧ r.finished = true

/-- **The receiver is safe anyway**: what is left is the success of the sender. -/
theorem safe_iff (hinv : Inv t s) : Safe t s ↔ SentAll s := by
  constructor
  · intro h p hp hzero
    obtain ⟨r, hr, hf, -⟩ := h.sent p hp hzero
    exact ⟨r, hr, hf⟩
  · intro h
    refine ⟨fun r hr => ?_, fun r hr hzero => ?_, fun p hp hzero => ?_⟩
    · obtain ⟨hvalid, hrole⟩ := hinv.valid false r hr
      have hfile := hvalid.file
      rw [if_neg (by simp [hrole])] at hfile
      exact ⟨r.blocks, hvalid.le, hfile⟩
    · exact (file_of_finished hinv hr ((hinv.valid false r hr).1.done hzero)).1
    · obtain ⟨r, hr, hf⟩ := h p hp hzero
      exact ⟨r, hr, hf, (file_of_finished hinv hr hf).1⟩

/-- The sender succeeds when its last block is acknowledged, which the receiver then has; or else it
returns because it will not wait any longer, or sends the block again. -/
theorem move_sender (hinv : Inv t s) {ev : Event} {p : Party} {r : Reaction}
    (hp : s.party true = some p) (hrunning : p.result = none) (hmove : Moves s ev true p r)
    (hzero : r.1.result = some 0) (hfalse : ¬ FalseSuccess s ev) :
    ∃ q, s.receiver = some q ∧ q.finished = true := by
  obtain ⟨hvalid, hrole⟩ := hinv.valid true p hp
  -- without the receiver's last block it is a false success
  have hreceiver : p.finished = true → (∀ q, s.receiver = some q → q.finished = false) →
      ¬ GivesUp s p ev := fun hf hnone hev => hfalse ⟨p, hp, hf, hnone, hev⟩
  by_contra hnot
  have hnone : ∀ q, s.receiver = some q → q.finished = false := by
    intro q hq
    rw [← Bool.not_eq_true]
    exact fun hf => hnot ⟨q, hq, hf⟩
  cases ev with
  | start i opens io => exact hmove
  | deliver role i io =>
    obtain ⟨rfl, m, hnet, hto, hage, rfl⟩ := hmove
    have hm := List.mem_of_getElem? hnet
    obtain ⟨-, hprogress⟩ := reacts_deliver hinv hp hrunning hm hto hage io
    obtain ⟨hf, hk | ⟨code, msg, herror⟩⟩ := hprogress.success hrole hzero
    · -- the receiver is at the last block as well
      have hle := (hinv.net m hm).2
      rw [hto, Bool.not_true, hk, hvalid.finished.mp hf] at hle
      cases hq : s.receiver with
      | none =>
        have : s.blocks false = 0 := by
          rw [State.blocks]
          have : s.party false = none := hq
          rw [this]
        have := total_pos t
        omega
      | some q =>
        have hat : s.blocks false = q.blocks := blocks_of_party hq
        have hqvalid := (hinv.valid false q hq).1
        have hlast : q.blocks = t.total := Nat.le_antisymm hqvalid.le (hat ▸ hle)
        have := hnone q hq
        rw [hqvalid.finished.mpr hlast] at this
        cases this
    · refine hreceiver hf hnone ⟨rfl, code, msg, m.block, ?_⟩
      rw [hnet, ← herror, ← hto]
  | timeout role =>
    obtain ⟨rfl, rfl⟩ := hmove
    rw [Party.timeout] at hzero
    split at hzero
    · rename_i hlast
      exact hreceiver (by simpa [Party.ret] using hzero) hnone ⟨rfl, Or.inl (by omega)⟩
    · rw [Party.emit] at hzero
      dsimp only at hzero
      split at hzero
      · rename_i hfinal
        exact hreceiver hfinal.1 hnone ⟨rfl, Or.inr hfinal.2⟩
      · have : p.result = some 0 := hzero
        rw [hrunning] at this
        cases this
  | pollFails role =>
    obtain ⟨rfl, rfl⟩ := hmove
    exact hreceiver (by simpa [Party.pollFails, Party.ret] using hzero) hnone rfl

/-- A step that is no false success keeps the sender from succeeding too early. -/
theorem sentAll_step (hinv : Inv t s) {ev : Event} (h : t.step s ev = some s') (hs : SentAll s)
    (hfalse : ¬ FalseSuccess s ev) : SentAll s' := by
  rcases step_cases h with ⟨i, opens, io, write, blksize, tsize, b, k, -, hnone, hnet, rfl⟩ |
    ⟨put, p, r, hp, hrunning, hmove, rfl⟩
  · intro q hq hzero
    cases hup : t.upload with
    | true =>
      rw [hup] at hq hnone
      obtain ⟨w, hw, -⟩ := hs q hq hzero
      have : s.receiver = none := hnone
      rw [this] at hw
      cases hw
    | false =>
      rw [hup] at hq
      cases hq
      exact absurd hzero ((starts_of_request hinv hnet).success hup)
  · intro q hq hzero
    cases put with
    | true =>
      cases hq
      have hq : ∃ q, s.receiver = some q ∧ q.finished = true :=
        move_sender hinv hp hrunning hmove hzero hfalse
      exact hq
    | false =>
      -- a receiver that has finished has returned
      obtain ⟨w, hw, hf⟩ := hs q hq hzero
      have hsame : w = p := Option.some.inj (hw.symm.trans hp)
      have hreturned := (file_of_finished hinv hw hf).2
      rw [hsame, hrunning] at hreturned
      cases hreturned

theorem not_sentAll_of_false {ev : Event} (h : t.step s ev = some s') (hfalse : FalseSuccess s ev) :
    ¬ SentAll s' := by
  obtain ⟨p, hsender, hf, hnone, hev⟩ := hfalse
  intro hs
  have hdone : ∀ r : Reaction, s' = s.act true r → r.1.result = some 0 → False := by
    rintro r rfl hzero
    obtain ⟨w, hw, hwf⟩ := hs r.1 rfl hzero
    have := hnone w hw
    rw [hwf] at this
    cases this
  have hret : p.ret.result = some 0 := by simp [Party.ret, hf]
  rcases step_cases h with ⟨i, opens, io, write, blksize, tsize, b, k, rfl, -, -, -⟩ |
    ⟨put, q, r, hp, -, hmove, hs'⟩
  · exact hev
  · cases ev with
    | start i opens io => exact hev
    | deliver role i io =>
      obtain ⟨rfl, m, hnet, -, -, rfl⟩ := hmove
      obtain ⟨rfl, code, msg, block, hm⟩ := hev
      have hq : q = p := Option.some.inj (hp.symm.trans hsender)
      rw [hnet] at hm
      refine hdone _ hs' ?_
      rw [Option.some.inj hm, hq]
      simpa [Party.receive, Packet.read, Party.ret] using hf
    | timeout role =>
      obtain ⟨rfl, rfl⟩ := hmove
      obtain ⟨rfl, hgone⟩ := hev
      have hq : q = p := Option.some.inj (hp.symm.trans hsender)
      refine hdone _ hs' ?_
      rw [hq, Party.timeout]
      split
      · exact hret
      · rename_i hleft
        have hack : p.opcode = 4 := hgone.resolve_left (by omega)
        rw [Party.emit, if_pos ⟨hf, hack⟩]
        simp [Party.ret, hf]
    | pollFails role =>
      obtain ⟨rfl, rfl⟩ := hmove
      cases hev
      have hq : q = p := Option.some.inj (hp.symm.trans hsender)
      refine hdone _ hs' ?_
      rw [hq]
      exact hret

end

theorem sentAll_init (t : Transfer) : SentAll t.init := by
  intro p hp hzero
  have hrole : t.upload = true := by
    by_contra hup
    rw [Bool.not_eq_true] at hup
    have : t.init.sender = none := by
      rw [Transfer.init, hup]
      rfl
    rw [this] at hp
    cases hp
  have hself := party_act_self ⟨none, none, []⟩ t.upload
    (client t.upload t.nameLength t.blksize t.wantTransferSize t.file)
  rw [hrole] at hself
  have hparty : t.init.party true = some p := hp
  rw [Transfer.init, hrole, hself] at hparty
  cases hparty
  exact absurd hzero (hrole ▸ (valid_client t).2.2.2.1)

/-- **A transfer is safe** in every state of a run exactly when no step of the run is a false
success. -/
theorem safe_iff_no_false_success (t : Transfer) (evs : List Event) :
    (∀ s ∈ Machine.states t.step t.init evs, Safe t s) ↔
      ∀ m ∈ Machine.moves t.step t.init evs, ¬ FalseSuccess m.1 m.2 := by
  refine Machine.states_iff_moves (J := Inv t) (P := Safe t) (A := fun _ _ => True)
    (G := fun s ev => ¬ FalseSuccess s ev) ?_ ?_ ?_ (inv_init t) ?_ evs fun _ _ => trivial
  · exact fun s ev s' h _ hinv _ => inv_step hinv h
  · intro s ev s' h _ hinv hsafe hgood
    exact (safe_iff (inv_step hinv h)).mpr
      (sentAll_step hinv h ((safe_iff hinv).mp hsafe) hgood)
  · intro s ev s' h _ hinv _ hsafe hfalse
    exact not_sentAll_of_false h hfalse ((safe_iff (inv_step hinv h)).mp hsafe)
  · exact (safe_iff (inv_init t)).mpr (sentAll_init t)

def threeBytes : Transfer := ⟨[1, 2, 3], true, 8, 512, true⟩

/-- The ACK of the request comes twice.  After the second one the sender's wait ends, it sends its
block again and returns 0, and the block never arrives. -/
theorem duplicate_ack_succeeds :
    ¬ ∀ (t : Transfer) (evs : List Event), ∀ s ∈ Machine.states t.step t.init evs, Safe t s := by
  intro h
  have hrun : ((Machine.states threeBytes.step threeBytes.init
      [.start 0 true true, .deliver true 1 true, .deliver true 1 true, .timeout true]).any fun s =>
        s.sender.any (fun p => p.result == some 0) && s.receiver.all fun r => !r.finished) = true := by
    decide
  obtain ⟨s, hs, hbad⟩ := List.any_eq_true.mp hrun
  rw [Bool.and_eq_true] at hbad
  obtain ⟨hsender, hreceiver⟩ := hbad
  obtain ⟨p, hp, hzero⟩ := (Option.any_eq_true _ _).mp hsender
  obtain ⟨r, hr, hf, -⟩ := (h _ _ s hs).sent p hp (by simpa using hzero)
  have := (Option.all_eq_true _ _).mp hreceiver r hr
  rw [hf] at this
  cases this

end Rustybox.Tftp
