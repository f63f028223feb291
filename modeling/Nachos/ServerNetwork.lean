import Nachos.Executions
import Nachos.ServerBoxOne

/-! All servers, and the messages on their way to them. A message is handled as a whole.
Channels are reliable; between server-to-server threads they can be required to be
FIFO. What goes to a client leaves the system. -/
namespace Nachos.Network
open Executions

structure System where
  server : ℤ → Server
  net : List Packet

def System.initial : System := ⟨fun _ => .initial, []⟩

structure Setting where
  totalNumServers : ℕ
  ordered : Bool
  strayTemp : Bool := false
  deriving DecidableEq, Repr

def Setting.IsServer (S : Setting) (machine : ℤ) : Prop :=
  0 ≤ machine ∧ machine < S.totalNumServers

instance (S : Setting) (machine : ℤ) : Decidable (S.IsServer machine) :=
  inferInstanceAs (Decidable (_ ∧ _))

/-- Mailbox 1 is served only when there are several servers. -/
def Setting.Served (S : Setting) (p : Packet) : Prop :=
  S.IsServer p.toMachine ∧ (p.toMailbox = 0 ∨ p.toMailbox = 1 ∧ 1 < S.totalNumServers)

instance (S : Setting) (p : Packet) : Decidable (S.Served p) :=
  inferInstanceAs (Decidable (_ ∧ _))

/-- Two messages from one server-to-server thread to another. -/
def Setting.SameChannel (S : Setting) (q p : Packet) : Prop :=
  q.fromMachine = p.fromMachine ∧ q.toMachine = p.toMachine ∧ S.IsServer p.fromMachine ∧
    q.fromMailbox = 1 ∧ p.fromMailbox = 1 ∧ q.toMailbox = 1 ∧ p.toMailbox = 1

instance (S : Setting) (q p : Packet) : Decidable (S.SameChannel q p) := by
  unfold Setting.SameChannel
  infer_instance

def Setting.config (S : Setting) (machine : ℤ) : Config :=
  ⟨machine, S.totalNumServers, S.strayTemp⟩

@[simp] theorem Setting.config_myMachineID (S : Setting) (machine : ℤ) :
    (S.config machine).myMachineID = machine := rfl

@[simp] theorem Setting.config_totalNumServers (S : Setting) (machine : ℤ) :
    (S.config machine).totalNumServers = S.totalNumServers := rfl

/-- The thread that receives the message. -/
def handlePacket (S : Setting) (s : Server) (p : Packet) : Except Fault (Server × List Packet) :=
  if p.toMailbox = 0 then boxZero (S.config p.toMachine) s p
  else boxOne (S.config p.toMachine) s p

inductive Action
  | arrive (p : Packet)
  | handle (p : Packet)
  deriving DecidableEq, Repr

inductive Refusal
  /-- the message is not there, or not the oldest of its channel -/
  | notEnabled
  | crash (fault : Fault)

def Setting.post (S : Setting) (net out : List Packet) : List Packet :=
  net ++ out.filter fun p => S.Served p

/-- The message is in flight, and where channels are FIFO it is the oldest of its channel. -/
def Setting.Enabled (S : Setting) (net : List Packet) (p : Packet) : Prop :=
  p ∈ net ∧ (S.ordered = true → ∀ q ∈ net.takeWhile (· ≠ p), ¬ S.SameChannel q p)

instance (S : Setting) (net : List Packet) (p : Packet) : Decidable (S.Enabled net p) :=
  inferInstanceAs (Decidable (_ ∧ _))

/-- One action of the system and the messages that it sends. -/
def network (S : Setting) (g : System) : Action → Except Refusal (System × List Packet)
  | .arrive p => .ok (⟨g.server, S.post g.net [p]⟩, [])
  | .handle p =>
    if S.Enabled g.net p then
      match handlePacket S (g.server p.toMachine) p with
      | .error f => .error (.crash f)
      | .ok r => .ok (⟨Function.update g.server p.toMachine r.1, S.post (g.net.erase p) r.2⟩, r.2)
    else .error .notEnabled

abbrev NetworkStep := Transition System (Action × List Packet)

variable {S : Setting} {g g' : System} {p : Packet} {out : List Packet}

theorem network_arrive_iff :
    network S g (.arrive p) = .ok (g', out) ↔
      g' = ⟨g.server, S.post g.net [p]⟩ ∧ out = [] := by
  simp [network, eq_comm]

theorem network_handle_iff :
    network S g (.handle p) = .ok (g', out) ↔ S.Enabled g.net p ∧
      ∃ t, handlePacket S (g.server p.toMachine) p = .ok (t, out) ∧
        g' = ⟨Function.update g.server p.toMachine t, S.post (g.net.erase p) out⟩ := by
  by_cases h : S.Enabled g.net p
  · simp only [network, h, true_and]
    cases hb : handlePacket S (g.server p.toMachine) p with
    | error f => simp
    | ok r =>
      obtain ⟨t, sent⟩ := r
      constructor
      · intro he
        obtain ⟨rfl, rfl⟩ := Prod.mk.inj (Except.ok.inj he)
        exact ⟨t, rfl, rfl⟩
      · rintro ⟨t', ht, rfl⟩
        obtain ⟨rfl, rfl⟩ := Prod.mk.inj (Except.ok.inj ht)
        rfl
  · simp [network, h]

theorem mem_post {net : List Packet} : p ∈ S.post net out ↔ p ∈ net ∨ p ∈ out ∧ S.Served p := by
  simp [Setting.post, List.mem_filter]

/-- Only served messages are ever in flight. -/
theorem network_served {a : Action} (h : network S g a = .ok (g', out))
    (hg : ∀ p ∈ g.net, S.Served p) : ∀ p ∈ g'.net, S.Served p := by
  cases a with
  | arrive q =>
    obtain ⟨rfl, rfl⟩ := network_arrive_iff.mp h
    intro p hp
    rcases mem_post.mp hp with hp | hp
    · exact hg p hp
    · exact hp.2
  | handle q =>
    obtain ⟨-, t, -, rfl⟩ := network_handle_iff.mp h
    intro p hp
    rcases mem_post.mp hp with hp | hp
    · exact hg p (List.mem_of_mem_erase hp)
    · exact hp.2

/-- What holds of every server at the start and is kept by its handlers holds of every
server throughout. -/
theorem network_forall_servers {P : ℤ → Server → Prop} {a : Action}
    (h : network S g a = .ok (g', out)) (hg : ∀ i, P i (g.server i))
    (hP : ∀ s p t out, P p.toMachine s → handlePacket S s p = .ok (t, out) → P p.toMachine t) :
    ∀ i, P i (g'.server i) := by
  cases a with
  | arrive q =>
    obtain ⟨rfl, rfl⟩ := network_arrive_iff.mp h
    exact hg
  | handle q =>
    obtain ⟨-, t, ht, rfl⟩ := network_handle_iff.mp h
    intro i
    by_cases hi : i = q.toMachine
    · subst hi
      simpa using hP _ _ _ _ (hg _) ht
    · simpa [Function.update_of_ne hi] using hg i

end Nachos.Network
