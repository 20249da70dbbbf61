import KvJet.Server.Flooding
import Mathlib.Algebra.Order.BigOperators.Group.Finset

/-!
# How far gossip comes

The network of `Server/Flooding.lean` is a flood in the sense of `Lib/Flood.lean`: however the
workers come between each other, the messages are handed on finitely often (`flood_ends`), and when
there is nothing left to do, a message has come to every server that connections lead to
(`flood_reaches`); and there all servers have the same topology (`flood_agrees`).
-/

namespace KvJet
namespace Server

open OrderedMap (Ordered)
open Resp
open Raft (Uuid)

namespace Network

variable {g : Wiring} {b : Batch} {t₀ : UInt64} {w₀ w : Network}

/-! ## It is a flood

A copy of the library is a message on its way to a server: on a queue, on the wire, waiting for a
worker, or between two steps of one. -/

/-- The copies in a text for the server `u`. -/
def arriving (u : Uuid) (text : Bytes) : List (Flood.Copy Uuid Message) :=
  ((requestsIn text).filterMap Message.read).map fun m => ⟨u, m, .waiting⟩

/-- The copies on the queue of `v`. -/
def queued (g : Wiring) (v : Uuid) (queue : List (Bytes × Int)) : List (Flood.Copy Uuid Message) :=
  queue.flatMap fun q =>
    match g.leads v q.2 with
    | some u => arriving u q.1
    | none => []

def onQueues (g : Wiring) (w : Network) : Multiset (Flood.Copy Uuid Message) :=
  ∑ v ∈ g.members, ↑(queued g v (w.server v).messageQueue)

def onWire (wire : List (Uuid × Bytes)) : Multiset (Flood.Copy Uuid Message) :=
  ↑(wire.flatMap fun e => arriving e.1 e.2)

def inHand (relays : List Relay) : Multiset (Flood.Copy Uuid Message) := ↑(relays.map Relay.copy)

def flood (g : Wiring) (b : Batch) (w : Network) : Flood.State Uuid Message where
  known v m := m ∈ b.messages ∧ (w.server v).gossip.findGossip m.id = true
  copies := onQueues g w + onWire w.wire + inHand w.relays

theorem flood_copies (w : Network) : (flood g b w).copies
    = onQueues g w + onWire w.wire + inHand w.relays := rfl

/-- The connections of the start that stay, whatever the batch does. -/
def Lasting (g : Wiring) (b : Batch) (w₀ : Network) (v u : Uuid) : Prop :=
  v ∈ g.members ∧ b.Spares u ∧ g.Linked v (w₀.server v) u

def fanout (g : Wiring) (w₀ : Network) : ℕ :=
  ∑ v ∈ g.members, (w₀.server v).peers.connections.length + g.members.card

theorem arriving_foreign {u : Uuid} {text : Bytes} (h : Foreign text) : arriving u text = [] := by
  unfold arriving
  rw [List.filterMap_eq_nil_iff.mpr h]
  rfl

theorem arriving_text {u : Uuid} {m : Message} (h : m.Wire) :
    arriving u m.text = [⟨u, m, .waiting⟩] := by
  unfold arriving
  rw [requestsIn_text h, List.filterMap_cons_some (Message.read_request m)]
  rfl

theorem letThrough_foreign {s : Membership} {u : Uuid} {text : Bytes} (h : Foreign text) :
    letThrough s u text = [] := by
  refine List.filterMap_eq_nil_iff.mpr fun request hrequest => ?_
  rw [h request hrequest]
  rfl

theorem letThrough_text {s : Membership} {u : Uuid} {m : Message} (h : m.Wire) :
    letThrough s u m.text
      = if s.gossip.findGossip m.id then [] else [⟨u, m.request, m, .checked⟩] := by
  unfold letThrough
  rw [requestsIn_text h]
  simp only [List.filterMap_cons, List.filterMap_nil, Message.read_request, Option.bind_some]
  cases s.gossip.findGossip m.id <;> rfl

theorem queued_append (g : Wiring) (v : Uuid) (q q' : List (Bytes × Int)) :
    queued g v (q ++ q') = queued g v q ++ queued g v q' := List.flatMap_append

/-- What is no text for another server counts for nothing. -/
theorem queued_eq_nil {v : Uuid} {q : List (Bytes × Int)}
    (h : ∀ e ∈ q, g.leads v e.2 = none ∨ Foreign e.1) : queued g v q = [] := by
  refine List.flatMap_eq_nil_iff.mpr fun e he => ?_
  rcases h e he with hnone | hforeign
  · rw [hnone]
  · split
    · exact arriving_foreign hforeign
    · rfl

theorem leads_of_neg {v : Uuid} {fd : Int} (h : fd < 0) : g.leads v fd = none := by
  cases hleads : g.leads v fd with
  | none => rfl
  | some u => exact absurd (g.real v fd u hleads) (Int.not_le.mpr h)

section Queues

variable {v : Uuid} {s : Membership} {l : List (Flood.Copy Uuid Message)}

theorem onQueues_put (hv : v ∈ g.members) (s : Membership) :
    onQueues g (w.put v s) + ↑(queued g v (w.server v).messageQueue)
      = onQueues g w + ↑(queued g v s.messageQueue) := by
  have hrest : ∀ x ∈ g.members.erase v, (↑(queued g x ((w.put v s).server x).messageQueue) :
      Multiset (Flood.Copy Uuid Message)) = ↑(queued g x (w.server x).messageQueue) := by
    intro x hx
    rw [show (w.put v s).server x = w.server x from
      Function.update_of_ne (Finset.ne_of_mem_erase hx) _ _]
  unfold onQueues
  rw [← Finset.add_sum_erase _ _ hv, ← Finset.add_sum_erase g.members _ hv,
    Finset.sum_congr rfl hrest]
  rw [show (w.put v s).server v = s from Function.update_self ..]
  ac_rfl

theorem onQueues_same (hv : v ∈ g.members)
    (h : queued g v s.messageQueue = queued g v (w.server v).messageQueue) :
    onQueues g (w.put v s) = onQueues g w := by
  have hput := onQueues_put (w := w) hv s
  rw [h] at hput
  exact add_right_cancel hput

theorem onQueues_more (hv : v ∈ g.members)
    (h : queued g v s.messageQueue = queued g v (w.server v).messageQueue ++ l) :
    onQueues g (w.put v s) = ↑l + onQueues g w := by
  have hput := onQueues_put (w := w) hv s
  rw [h, ← Multiset.coe_add] at hput
  refine add_right_cancel (hput.trans ?_)
  ac_rfl

theorem onQueues_less (hv : v ∈ g.members)
    (h : queued g v (w.server v).messageQueue = l ++ queued g v s.messageQueue) :
    onQueues g w = ↑l + onQueues g (w.put v s) := by
  have hput := onQueues_put (w := w) hv s
  rw [h, ← Multiset.coe_add] at hput
  refine add_right_cancel (hput.symm.trans ?_)
  ac_rfl

end Queues

theorem flood_known_put {v : Uuid} {s : Membership} (h : s.gossip = (w.server v).gossip) :
    (flood g b (w.put v s)).known = (flood g b w).known := by
  funext x m
  show (m ∈ b.messages ∧ (Function.update w.server v s x).gossip.findGossip m.id = true)
    = (m ∈ b.messages ∧ (w.server x).gossip.findGossip m.id = true)
  by_cases hxv : x = v
  · rw [hxv, Function.update_self, h]
  · rw [Function.update_of_ne hxv]

/-- A server has come to another state, with the same cache and the same copies on its queue. -/
theorem flood_put {v : Uuid} {s : Membership} (hv : v ∈ g.members)
    (hgossip : s.gossip = (w.server v).gossip)
    (hqueue : queued g v s.messageQueue = queued g v (w.server v).messageQueue) :
    flood g b (w.put v s) = flood g b w := by
  refine Flood.State.ext (flood_known_put hgossip) ?_
  show onQueues g (w.put v s) + _ + _ = onQueues g w + _ + _
  rw [onQueues_same hv hqueue]
  rfl

/-- A step does nothing to the flood, or it is one of its steps. -/
def Floods (g : Wiring) (b : Batch) (w₀ w w' : Network) : Prop :=
  (flood g b w' = flood g b w ∧ w'.handedOn = w.handedOn) ∨
    (Flood.Step (Lasting g b w₀) g.members (fanout g w₀) (flood g b w) (flood g b w') ∧
      w'.handedOn ≤ w.handedOn + 1)

theorem send_floods {v : Uuid} (hv : v ∈ g.members) (fd : Int) :
    Floods g b w₀ w (w.send g v fd) := by
  unfold Network.send
  cases hqueue : (w.server v).messageQueue with
  | nil => exact Or.inl ⟨rfl, rfl⟩
  | cons first rest =>
    obtain ⟨text, k⟩ := first
    have hcopies : queued g v (w.server v).messageQueue
        = queued g v [(text, k)] ++ queued g v rest := by
      rw [hqueue]
      exact queued_append g v [(text, k)] rest
    have hsilent : g.leads v k = none →
        queued g v rest = queued g v (w.server v).messageQueue := by
      intro hnone
      have hnil : queued g v [(text, k)] = [] := by
        refine queued_eq_nil fun e he => Or.inl ?_
        rw [List.mem_singleton.mp he]
        exact hnone
      rw [hcopies, hnil, List.nil_append]
    dsimp only
    split
    · rename_i hcall
      have hnone : g.leads v k = none := leads_of_neg (by rw [hcall]; decide)
      split
      · exact Or.inl ⟨flood_put hv rfl (hsilent hnone), rfl⟩
      · exact Or.inl ⟨rfl, rfl⟩
    · split
      · rename_i hrebuild
        have hnone : g.leads v k = none := leads_of_neg (by rw [hrebuild]; decide)
        refine Or.inl ⟨flood_put hv ?_ ?_, rfl⟩ <;> unfold Membership.rebuild <;> split
        · rfl
        · rfl
        · exact hsilent hnone
        · exact hsilent hnone
      · split
        · rename_i u hleads
          refine Or.inl ⟨Flood.State.ext (flood_known_put rfl) ?_, rfl⟩
          have hone : queued g v [(text, k)] = arriving u text := by
            unfold queued
            rw [List.flatMap_singleton, hleads]
          have hwire : onWire (w.wire ++ [(u, text)]) = onWire w.wire + ↑(arriving u text) := by
            unfold onWire
            rw [List.flatMap_append, List.flatMap_singleton, Multiset.coe_add]
          rw [flood_copies, flood_copies, onQueues_less (w := w)
            (s := { w.server v with messageQueue := rest }) hv hcopies, hone]
          dsimp only
          rw [hwire]
          show onQueues g (w.put v _) + _ + _ = _
          ac_rfl
        · rename_i hnone
          exact Or.inl ⟨flood_put hv rfl (hsilent hnone), rfl⟩

/-- The copies on the wire, of which one is read. -/
theorem onWire_of_getElem? {k : Nat} {e : Uuid × Bytes} (hk : w.wire[k]? = some e) :
    onWire w.wire = ↑(arriving e.1 e.2) + onWire (w.wire.eraseIdx k) := by
  obtain ⟨hlt, rfl⟩ := List.getElem?_eq_some_iff.mp hk
  unfold onWire
  rw [Multiset.coe_add, Multiset.coe_eq_coe]
  exact (List.Perm.flatMap_right _ (List.getElem_cons_eraseIdx_perm hlt)).symm

/-- The copies that the workers have, of which one goes on. -/
theorem inHand_of_getElem? {k : Nat} {r : Relay} (hk : w.relays[k]? = some r) :
    inHand w.relays = {r.copy} + inHand (w.relays.eraseIdx k) ∧
      ∀ r', inHand (w.relays.set k r') = {r'.copy} + inHand (w.relays.eraseIdx k) := by
  obtain ⟨hlt, rfl⟩ := List.getElem?_eq_some_iff.mp hk
  unfold inHand
  refine ⟨?_, fun r' => ?_⟩ <;>
    rw [Multiset.singleton_add, Multiset.cons_coe, Multiset.coe_eq_coe]
  · exact ((List.getElem_cons_eraseIdx_perm hlt).map Relay.copy).symm
  · exact (List.set_perm_cons_eraseIdx hlt r').map Relay.copy

theorem read_floods (hlaunch : Launch g b w₀) (h : Kept g b t₀ w₀ w) (k : Nat) :
    Floods g b w₀ w (Network.step g w (.read k)) := by
  unfold Network.step
  dsimp only
  cases hk : w.wire[k]? with
  | none => exact Or.inl ⟨rfl, rfl⟩
  | some e =>
    obtain ⟨u, text⟩ := e
    have hwire := onWire_of_getElem? hk
    dsimp only at hwire ⊢
    rcases (h.wire _ (List.mem_of_getElem? hk)).2 with hforeign | ⟨m, hm, rfl⟩
    · refine Or.inl ⟨Flood.State.ext rfl ?_, rfl⟩
      rw [letThrough_foreign hforeign, List.append_nil, flood_copies, flood_copies, hwire,
        arriving_foreign hforeign, Multiset.coe_nil, zero_add]
      rfl
    · rw [arriving_text (hlaunch.texts m hm), Multiset.coe_singleton] at hwire
      have hcopies : (flood g b w).copies = ⟨u, m, .waiting⟩ ::ₘ
          (onQueues g w + onWire (w.wire.eraseIdx k) + inHand w.relays) := by
        rw [flood_copies, hwire, ← Multiset.singleton_add]
        ac_rfl
      rw [letThrough_text (hlaunch.texts m hm)]
      cases hfound : (w.server u).gossip.findGossip m.id with
      | true =>
        have hdrop : Flood.Step (Lasting g b w₀) g.members (fanout g w₀) (flood g b w) _ :=
          .drop ⟨hm, hfound⟩ hcopies
        rw [if_pos rfl, List.append_nil]
        exact Or.inr ⟨hdrop, Nat.le_succ _⟩
      | false =>
        have hcheck : Flood.Step (Lasting g b w₀) g.members (fanout g w₀) (flood g b w) _ :=
          .check (fun hknown => Bool.false_ne_true (hfound.symm.trans hknown.2)) hcopies
        rw [if_neg Bool.false_ne_true]
        refine Or.inr ⟨?_, Nat.le_succ _⟩
        convert hcheck using 1
        refine Flood.State.ext rfl ?_
        have hrelays : inHand (w.relays ++ [⟨u, m.request, m, .checked⟩])
            = inHand w.relays + {⟨u, m, .checked⟩} := by
          unfold inHand
          rw [List.map_append, ← Multiset.coe_add]
          rfl
        rw [flood_copies, ← Multiset.singleton_add]
        dsimp only
        rw [hrelays]
        show onQueues g w + _ + _ = _
        ac_rfl

theorem note_floods (hlaunch : Launch g b w₀) (h : Kept g b t₀ w₀ w) {k : Nat} {now : UInt64}
    (hev : InMinute t₀ w (.note k now)) :
    Floods g b w₀ w (Network.step g w (.note k now)) := by
  unfold Network.step
  dsimp only
  split
  · rename_i v request m hk
    obtain ⟨hv, hm, -⟩ := h.relays _ (List.mem_of_getElem? hk)
    dsimp only at hv hm
    obtain ⟨hhere, hset⟩ := inHand_of_getElem? hk
    have hcopies : (flood g b w).copies = ⟨v, m, .checked⟩ ::ₘ
        (onQueues g w + onWire w.wire + inHand (w.relays.eraseIdx k)) := by
      rw [flood_copies, hhere, ← Multiset.singleton_add]
      show _ + (({⟨v, m, .checked⟩} : Multiset (Flood.Copy Uuid Message)) + _) = _
      ac_rfl
    have hmark : Flood.Step (Lasting g b w₀) g.members (fanout g w₀) (flood g b w) _ :=
      .mark hcopies
    refine Or.inr ⟨?_, Nat.le_succ _⟩
    convert hmark using 1
    refine Flood.State.ext (funext fun u => funext fun n => ?_) ?_
    · show (n ∈ b.messages ∧ (Function.update w.server v _ u).gossip.findGossip n.id = true)
        = ((n ∈ b.messages ∧ (w.server u).gossip.findGossip n.id = true) ∨ (u = v ∧ n = m))
      by_cases huv : u = v
      · subst huv
        rw [Function.update_self]
        have hfind : ∀ n ∈ b.messages, ((w.server u).note now m).gossip.findGossip n.id = true
            ↔ (w.server u).gossip.findGossip n.id = true ∨ n = m := fun n hn =>
          (h.serves u hv).findGossip_note hm hn (hlaunch.room u hv) hev.2.1 (hev.2.2 _ hk)
        refine propext ?_
        constructor
        · rintro ⟨hn, hfound⟩
          exact ((hfind n hn).mp hfound).imp (fun hold => ⟨hn, hold⟩) (fun heq => ⟨rfl, heq⟩)
        · rintro (⟨hn, hold⟩ | ⟨-, rfl⟩)
          · exact ⟨hn, (hfind n hn).mpr (Or.inl hold)⟩
          · exact ⟨hm, (hfind n hm).mpr (Or.inr rfl)⟩
      · rw [Function.update_of_ne huv]
        exact propext (or_iff_left fun heq => huv heq.1).symm
    · rw [flood_copies, ← Multiset.singleton_add]
      dsimp only
      rw [hset]
      show onQueues g (w.put v _) + onWire w.wire + _ = _
      rw [onQueues_same (s := (w.server v).note now m) hv rfl]
      show _ + (({⟨v, m, .marked⟩} : Multiset (Flood.Copy Uuid Message)) + _) = _
      ac_rfl
  · exact Or.inl ⟨rfl, rfl⟩
  · exact Or.inl ⟨rfl, rfl⟩

/-- The copies that `broadcast` puts on the queue. -/
theorem queued_broadcast {m : Message} (hm : m.Wire) (v : Uuid) (s : Membership) :
    queued g v (s.broadcast m.text).messageQueue = queued g v s.messageQueue
      ++ (s.peers.connections.filterMap fun conn => g.leads v conn.2).map fun u =>
        ⟨u, m, .waiting⟩ := by
  unfold Membership.broadcast
  dsimp only
  rw [queued_append]
  refine congrArg (queued g v s.messageQueue ++ ·) ?_
  induction s.peers.connections with
  | nil => rfl
  | cons conn rest ih =>
    rw [List.map_cons, show queued g v ((m.text, conn.2) :: _) = _ ++ queued g v _ from
      List.flatMap_cons, ih]
    dsimp only
    cases hleads : g.leads v conn.2 with
    | none => simp only [List.filterMap_cons, hleads, List.nil_append]
    | some u =>
      simp only [List.filterMap_cons, hleads, List.map_cons, arriving_text hm,
        List.singleton_append]

theorem relay_floods (hlaunch : Launch g b w₀) (h : Kept g b t₀ w₀ w) (k : Nat) :
    Floods g b w₀ w (Network.step g w (.relay k)) := by
  unfold Network.step
  dsimp only
  split
  · rename_i v request m hk
    obtain ⟨hv, hm, hrequest⟩ := h.relays _ (List.mem_of_getElem? hk)
    dsimp only at hv hm hrequest
    have hserves := h.serves v hv
    have hcopies : (flood g b w).copies = ⟨v, m, .marked⟩ ::ₘ
        (onQueues g w + onWire w.wire + inHand (w.relays.eraseIdx k)) := by
      rw [flood_copies, (inHand_of_getElem? hk).1, ← Multiset.singleton_add]
      show _ + (({⟨v, m, .marked⟩} : Multiset (Flood.Copy Uuid Message)) + _) = _
      ac_rfl
    rw [hrequest, show encode m.request = m.text from rfl]
    have hqueue := queued_broadcast (g := g) (hlaunch.texts m hm) v (w.server v)
    refine Or.inr ⟨?_, Nat.le_refl _⟩
    set dsts : Multiset Uuid :=
      ↑((w.server v).peers.connections.filterMap fun conn => g.leads v conn.2) with hdsts
    have hlinked : ∀ u, Lasting g b w₀ v u → u ∈ dsts := by
      rintro u ⟨-, hspares, hlasting⟩
      obtain ⟨fd, hconn, hleads⟩ := hserves.linked u hspares hlasting
      exact Multiset.mem_coe.mpr (List.mem_filterMap.mpr ⟨(u, fd), hconn, hleads⟩)
    have hinside : ∀ u ∈ dsts, u ∈ g.members := by
      intro u hu
      obtain ⟨conn, -, hleads⟩ := List.mem_filterMap.mp (Multiset.mem_coe.mp hu)
      exact g.inside v conn.2 u hleads
    have hfew : dsts.card ≤ fanout g w₀ := by
      rw [hdsts, Multiset.coe_card]
      refine Nat.le_trans (List.length_filterMap_le _ _) ?_
      refine Nat.le_trans hserves.length_connections_le (Nat.add_le_add_right ?_ _)
      exact Finset.single_le_sum (f := fun x => (w₀.server x).peers.connections.length)
        (fun _ _ => Nat.zero_le _) hv
    have hpass : Flood.Step (Lasting g b w₀) g.members (fanout g w₀) (flood g b w) _ :=
      .pass hlinked hinside hfew hcopies
    convert hpass using 1
    refine Flood.State.ext (flood_known_put (g := g) rfl) ?_
    rw [flood_copies]
    dsimp only
    show onQueues g (w.put v _) + onWire w.wire + _ = _
    rw [onQueues_more hv hqueue, hdsts, Multiset.map_coe]
    ac_rfl
  · exact Or.inl ⟨rfl, rfl⟩
  · exact Or.inl ⟨rfl, rfl⟩

theorem step_floods (hlaunch : Launch g b w₀) (h : Kept g b t₀ w₀ w) {ev : Event}
    (hev : InMinute t₀ w ev) : Floods g b w₀ w (Network.step g w ev) := by
  cases ev with
  | read k => exact read_floods hlaunch h k
  | note k now => exact note_floods hlaunch h hev
  | relay k => exact relay_floods hlaunch h k
  | send v fd =>
    unfold Network.step
    dsimp only
    split
    · rename_i hv
      exact send_floods hv fd
    · exact Or.inl ⟨rfl, rfl⟩
  | hello v uuid fd =>
    unfold Network.step
    dsimp only
    split
    · rename_i hleads
      exact Or.inl ⟨flood_put hleads.1 rfl rfl, rfl⟩
    · exact Or.inl ⟨rfl, rfl⟩
  | other v text fd =>
    unfold Network.step
    dsimp only
    split
    · rename_i hforeign
      refine Or.inl ⟨flood_put hforeign.1 rfl ?_, rfl⟩
      unfold Membership.push
      dsimp only
      rw [queued_append, queued_eq_nil (v := v) (q := [(text, fd)]) fun e he => Or.inr ?_,
        List.append_nil]
      rw [List.mem_singleton.mp he]
      exact hforeign.2
    · exact Or.inl ⟨rfl, rfl⟩
  | settle k =>
    unfold Network.step
    dsimp only
    split
    · rename_i v m hk
      obtain ⟨hv, hm⟩ := h.closing _ (List.mem_of_getElem? hk)
      refine Or.inl ⟨?_, rfl⟩
      refine (show flood g b { w.put v _ with closing := _ } = flood g b (w.put v _) from
        Flood.State.ext rfl rfl).trans ?_
      cases m with
      | nodeIn id node =>
        obtain ⟨calls, hneg, -, hqueue⟩ := (w.server v).join_parts node
        refine flood_put hv ((w.server v).join_keeps node).2 ?_
        rw [show ((w.server v).settle (.nodeIn id node)).messageQueue = _ from hqueue,
          queued_append, queued_eq_nil fun e he => Or.inl (leads_of_neg (hneg e he)), List.append_nil]
      | nodeOut id uuid =>
        obtain ⟨hgossip, hqueue, -⟩ := (w.server v).leave_parts uuid
        refine flood_put hv hgossip ?_
        rw [show ((w.server v).settle (.nodeOut id uuid)).messageQueue = _ from hqueue]
    · exact Or.inl ⟨rfl, rfl⟩

/-! ## Runs -/

/-- What a run has done to the flood since its start. -/
structure Flooded (g : Wiring) (b : Batch) (t₀ : UInt64) (w₀ w : Network) : Prop where
  kept : Kept g b t₀ w₀ w
  inside : Flood.Inside g.members (flood g b w)
  closed : Flood.Closed (Lasting g b w₀) (flood g b w)
  held : ∀ v m, Flood.Held (flood g b w₀) v m → Flood.Held (flood g b w) v m
  bounded : Flood.potential g.members (fanout g w₀) (flood g b w) + w.handedOn
    ≤ Flood.potential g.members (fanout g w₀) (flood g b w₀) + w₀.handedOn

theorem mem_queued {v : Uuid} {q : List (Bytes × Int)} {c : Flood.Copy Uuid Message}
    (hc : c ∈ queued g v q) : c.node ∈ g.members := by
  obtain ⟨e, -, hc⟩ := List.mem_flatMap.mp hc
  split at hc
  · rename_i u hleads
    obtain ⟨m, -, rfl⟩ := List.mem_map.mp hc
    exact g.inside v e.2 u hleads
  · exact absurd hc List.not_mem_nil

theorem Launch.inside (h : Launch g b w₀) : Flood.Inside g.members (flood g b w₀) := by
  intro c hc
  rw [flood_copies, h.idle.1] at hc
  rcases Multiset.mem_add.mp hc with hc | hc
  · rcases Multiset.mem_add.mp hc with hc | hc
    · obtain ⟨v, -, hc⟩ := Multiset.mem_sum.mp hc
      exact mem_queued (Multiset.mem_coe.mp hc)
    · obtain ⟨e, he, hc⟩ := List.mem_flatMap.mp (Multiset.mem_coe.mp hc)
      obtain ⟨m, -, rfl⟩ := List.mem_map.mp hc
      exact (h.wire e he).1
  · exact absurd hc (Multiset.notMem_zero c)

theorem Launch.flooded (h : Launch g b w₀) (t₀ : UInt64) : Flooded g b t₀ w₀ w₀ where
  kept := h.kept t₀
  inside := h.inside
  closed v m hknown := Or.inr fun u hlink => by
    have hunseen := (h.fresh v hlink.1).2 m hknown.1
    exact absurd (hunseen.symm.trans hknown.2) Bool.false_ne_true
  held _ _ hheld := hheld
  bounded := Nat.le_refl _

theorem Flooded.step (hlaunch : Launch g b w₀) (h : Flooded g b t₀ w₀ w) {ev : Event}
    (hev : InMinute t₀ w ev) : Flooded g b t₀ w₀ (Network.step g w ev) := by
  have hkept := h.kept.step hlaunch hev
  rcases step_floods hlaunch h.kept hev with ⟨hsame, hcount⟩ | ⟨hstep, hcount⟩
  · refine ⟨hkept, ?_, ?_, ?_, ?_⟩ <;> rw [hsame]
    · exact h.inside
    · exact h.closed
    · exact h.held
    · rw [hcount]
      exact h.bounded
  · refine ⟨hkept, h.inside.step hstep, h.closed.step hstep,
      fun v m hheld => (h.held v m hheld).step hstep, ?_⟩
    have hlt := hstep.potential_lt h.inside
    have hbounded := h.bounded
    omega

theorem Launch.along (h : Launch g b w₀) {evs : List Event}
    (htime : Run.Along (Network.step g) (InMinute t₀) w₀ evs) :
    Flooded g b t₀ w₀ (exec g w₀ evs) :=
  Run.Along.invariant (fun _ _ hev hw => hw.step h hev) htime (h.flooded t₀)

/-! ## The topologies

When nothing is left to do each server has handled the same messages. What it made of them is then a
matter of their order only. -/

/-- What `v` has made of the batch: its topology is the start's after the effects of some of the
messages, of each that it knows unless a worker has still to do it. -/
def Told (g : Wiring) (b : Batch) (w₀ w : Network) (v : Uuid) : Prop :=
  ∃ es : List Message,
    (w.server v).cluster.topo = (Run.exec Message.effect (w₀.server v).cluster es).topo ∧
      (∀ m ∈ es, m ∈ b.messages) ∧
      ∀ m, (flood g b w).known v m → m ∈ es ∨ (v, m) ∈ w.closing ∨
        ∃ r ∈ w.relays, r.node = v ∧ r.message = m ∧ r.place = .marked

theorem topo_effect_congr {c c' : Cluster} (h : c.topo = c'.topo) (m : Message) :
    (m.effect c).topo = (m.effect c').topo := by
  cases m with
  | nodeIn id node => simp only [Message.effect, Cluster.addTopoNode, Cluster.addNodeToHash, h]
  | nodeOut id uuid => simp only [Message.effect, Cluster.delNodeToHash, h]

theorem topo_settle (s : Membership) (m : Message) :
    (s.settle m).cluster.topo = (m.effect s.cluster).topo := by
  cases m with
  | nodeIn id node => exact congrArg Cluster.topo (s.join_keeps node).1
  | nodeOut id uuid => simp only [Membership.settle, Membership.leave, Membership.delTopoNode,
      Message.effect]

theorem topo_rebuild (s : Membership) : s.rebuild.cluster.topo = s.cluster.topo := by
  unfold Membership.rebuild
  split
  · rfl
  · exact (Cluster.keeps_addNodeToHash _ _).1

theorem server_put (w : Network) (v u : Uuid) (s : Membership) :
    (w.put v s).server u = if u = v then s else w.server u := Function.update_apply ..

/-- A step that leaves the topologies, the caches and the workers past the check alone. -/
theorem Told.of_same {w' : Network} {v : Uuid} (h : Told g b w₀ w v)
    (htopo : (w'.server v).cluster.topo = (w.server v).cluster.topo)
    (hgossip : (w'.server v).gossip = (w.server v).gossip)
    (hworkers : w'.closing = w.closing ∧ ∀ r ∈ w.relays, r ∈ w'.relays) : Told g b w₀ w' v := by
  obtain ⟨es, hes, hin, hall⟩ := h
  refine ⟨es, htopo.trans hes, hin, fun m hm => ?_⟩
  refine (hall m ⟨hm.1, hgossip ▸ hm.2⟩).imp_right fun hm => ?_
  rw [hworkers.1]
  refine hm.imp_right ?_
  rintro ⟨r, hr, hrest⟩
  exact ⟨r, hworkers.2 r hr, hrest⟩

/-- A server has come to another state, with the same cache and topology. -/
theorem Told.put {v : Uuid} (h : Told g b w₀ w v) {x : Uuid} {s : Membership}
    (htopo : s.cluster.topo = (w.server x).cluster.topo)
    (hgossip : s.gossip = (w.server x).gossip) : Told g b w₀ (w.put x s) v := by
  refine h.of_same ?_ ?_ ⟨rfl, fun _ hr => hr⟩ <;> rw [server_put] <;> split
  · rename_i heq
    rw [heq]
    exact htopo
  · rfl
  · rename_i heq
    rw [heq]
    exact hgossip
  · rfl

theorem Told.send {v : Uuid} (h : Told g b w₀ w v) (x : Uuid) (fd : Int) :
    Told g b w₀ (w.send g x fd) v := by
  unfold Network.send
  split
  · exact h
  · dsimp only
    split
    · split
      · exact h.put rfl rfl
      · exact h
    · split
      · refine h.put (topo_rebuild _) ?_
        unfold Membership.rebuild
        split <;> rfl
      · split
        · exact h.put (s := { w.server x with messageQueue := _ }) rfl rfl
        · exact h.put rfl rfl

theorem mem_eraseIdx_or {α : Type*} {l : List α} {k : Nat} {a r : α} (hk : l[k]? = some a)
    (hr : r ∈ l) : r = a ∨ r ∈ l.eraseIdx k := by
  obtain ⟨hlt, rfl⟩ := List.getElem?_eq_some_iff.mp hk
  exact List.mem_cons.mp ((List.getElem_cons_eraseIdx_perm hlt).mem_iff.mpr hr)

theorem Told.note (hlaunch : Launch g b w₀) (hkept : Kept g b t₀ w₀ w) {v : Uuid}
    (h : Told g b w₀ w v) {k : Nat} {now : UInt64} (hev : InMinute t₀ w (.note k now)) :
    Told g b w₀ (Network.step g w (.note k now)) v := by
  unfold Network.step
  dsimp only
  split
  · rename_i x request m hk
    obtain ⟨hx, hm, -⟩ := hkept.relays _ (List.mem_of_getElem? hk)
    dsimp only at hx hm
    have hset : ∀ r, r ∈ w.relays.set k ⟨x, request, m, .marked⟩ ↔
        r ∈ ⟨x, request, m, .marked⟩ :: w.relays.eraseIdx k := by
      obtain ⟨hlt, -⟩ := List.getElem?_eq_some_iff.mp hk
      exact fun r => (List.set_perm_cons_eraseIdx hlt _).mem_iff
    obtain ⟨es, hes, hin, hall⟩ := h
    -- what was known before, or is known now, to `v`
    have hold : ∀ n, (flood g b w).known v n → n ∈ es ∨ (v, n) ∈ w.closing ∨
        ∃ r ∈ w.relays.set k ⟨x, request, m, .marked⟩,
          r.node = v ∧ r.message = n ∧ r.place = .marked := by
      intro n hn
      refine (hall n hn).imp_right fun hn => hn.imp_right ?_
      rintro ⟨r, hr, hnode, hmessage, hplace⟩
      refine ⟨r, (hset r).mpr (List.mem_cons_of_mem _ ?_), hnode, hmessage, hplace⟩
      exact (mem_eraseIdx_or hk hr).resolve_left fun heq =>
        Flood.Place.noConfusion (hplace.symm.trans (congrArg Relay.place heq))
    refine ⟨es, ?_, hin, fun n hn => ?_⟩
    · rw [← hes]
      show ((w.put x _).server v).cluster.topo = _
      rw [server_put]
      split
      · rename_i heq
        rw [heq]
        rfl
      · rfl
    · obtain ⟨hn, hfound⟩ := hn
      have hserver : ((w.put x ((w.server x).note now m)).server v).gossip.findGossip n.id = true :=
        hfound
      rw [server_put] at hserver
      split at hserver
      · rename_i heq
        subst heq
        rcases ((hkept.serves v hx).findGossip_note hm hn (hlaunch.room v hx) hev.2.1
          (hev.2.2 _ hk)).mp hserver with hknown | rfl
        · exact hold n ⟨hn, hknown⟩
        · exact Or.inr (Or.inr ⟨_, (hset _).mpr List.mem_cons_self, rfl, rfl, rfl⟩)
      · exact hold n ⟨hn, hserver⟩
  · exact h
  · exact h

theorem Told.relay {v : Uuid} (h : Told g b w₀ w v) (k : Nat) :
    Told g b w₀ (Network.step g w (.relay k)) v := by
  unfold Network.step
  dsimp only
  split
  · rename_i x request m hk
    obtain ⟨es, hes, hin, hall⟩ := h.put (x := x)
      (s := (w.server x).broadcast (encode request)) rfl rfl
    refine ⟨es, hes, hin, fun n hn => (hall n hn).imp_right ?_⟩
    rintro (hclosing | ⟨r, hr, rfl, rfl, hplace⟩)
    · exact Or.inl (List.mem_append_left _ hclosing)
    · rcases mem_eraseIdx_or hk hr with rfl | hr
      · exact Or.inl (List.mem_append_right _ List.mem_cons_self)
      · exact Or.inr ⟨r, hr, rfl, rfl, hplace⟩
  · exact h
  · exact h

theorem gossip_settle (s : Membership) (m : Message) : (s.settle m).gossip = s.gossip := by
  cases m with
  | nodeIn id node => exact (s.join_keeps node).2
  | nodeOut id uuid => exact (s.leave_parts uuid).1

theorem Told.settle (hkept : Kept g b t₀ w₀ w) {v : Uuid} (h : Told g b w₀ w v) (k : Nat) :
    Told g b w₀ (Network.step g w (.settle k)) v := by
  unfold Network.step
  dsimp only
  split
  · rename_i x m hk
    obtain ⟨-, hm⟩ := hkept.closing _ (List.mem_of_getElem? hk)
    obtain ⟨es, hes, hin, hall⟩ := h
    have hknown : ∀ n, (flood g b { w.put x ((w.server x).settle m) with
        closing := w.closing.eraseIdx k }).known v n → (flood g b w).known v n := by
      intro n hn
      rw [show (flood g b { w.put x ((w.server x).settle m) with
        closing := w.closing.eraseIdx k }).known = (flood g b w).known from
          flood_known_put (g := g) (gossip_settle _ m)] at hn
      exact hn
    by_cases hvx : v = x
    · subst hvx
      refine ⟨es ++ [m], ?_, fun n hn => ?_, fun n hn => ?_⟩
      · show ((w.put v _).server v).cluster.topo = _
        rw [server_put, if_pos rfl, topo_settle, Run.exec_append, Run.exec_cons, Run.exec_nil]
        exact topo_effect_congr hes m
      · rcases List.mem_append.mp hn with hn | hn
        · exact hin n hn
        · rw [List.mem_singleton.mp hn]
          exact hm
      · rcases hall n (hknown n hn) with hes | hclosing | hrelay
        · exact Or.inl (List.mem_append_left _ hes)
        · rcases mem_eraseIdx_or hk hclosing with heq | hclosing
          · rw [(Prod.mk.inj heq).2]
            exact Or.inl (List.mem_append_right _ List.mem_cons_self)
          · exact Or.inr (Or.inl hclosing)
        · exact Or.inr (Or.inr hrelay)
    · refine ⟨es, ?_, hin, fun n hn => ?_⟩
      · show ((w.put x _).server v).cluster.topo = _
        rw [server_put, if_neg hvx]
        exact hes
      · refine (hall n (hknown n hn)).imp_right fun hn => hn.imp_left fun hclosing => ?_
        exact (mem_eraseIdx_or hk hclosing).resolve_left fun heq => hvx (Prod.mk.inj heq).1
  · exact h

theorem Told.step (hlaunch : Launch g b w₀) (hkept : Kept g b t₀ w₀ w) {v : Uuid}
    (h : Told g b w₀ w v) {ev : Event} (hev : InMinute t₀ w ev) :
    Told g b w₀ (Network.step g w ev) v := by
  cases ev with
  | note k now => exact h.note hlaunch hkept hev
  | relay k => exact h.relay k
  | settle k => exact h.settle hkept k
  | send x fd =>
    unfold Network.step
    dsimp only
    split
    · exact h.send x fd
    · exact h
  | hello x uuid fd =>
    unfold Network.step
    dsimp only
    split
    · exact h.put rfl rfl
    · exact h
  | other x text fd =>
    unfold Network.step
    dsimp only
    split
    · exact h.put rfl rfl
    · exact h
  | read k =>
    unfold Network.step
    dsimp only
    split
    · exact h
    · exact h.of_same rfl rfl ⟨rfl, fun r hr => List.mem_append_left _ hr⟩

/-! ## The results -/

/-- A copy of the message is on its way to the server. -/
def Sent (g : Wiring) (w : Network) (v : Uuid) (m : Message) : Prop :=
  (v, m.text) ∈ w.wire ∨
    ∃ x ∈ g.members, ∃ fd, (m.text, fd) ∈ (w.server x).messageQueue ∧ g.leads x fd = some v

theorem Launch.held (h : Launch g b w₀) {v : Uuid} {m : Message} (hm : m ∈ b.messages)
    (hsent : Sent g w₀ v m) : Flood.Held (flood g b w₀) v m := by
  have hone : (⟨v, m, .waiting⟩ : Flood.Copy Uuid Message) ∈ arriving v m.text := by
    rw [arriving_text (h.texts m hm)]
    exact List.mem_cons_self
  refine Or.inr ⟨⟨v, m, .waiting⟩, ?_, rfl, rfl, Flood.Place.noConfusion⟩
  rw [flood_copies]
  rcases hsent with hwire | ⟨x, hx, fd, hqueue, hleads⟩
  · exact Multiset.mem_add.mpr (Or.inl (Multiset.mem_add.mpr (Or.inr
      (List.mem_flatMap.mpr ⟨_, hwire, hone⟩))))
  · refine Multiset.mem_add.mpr (Or.inl (Multiset.mem_add.mpr (Or.inl ?_)))
    refine Multiset.mem_sum.mpr ⟨x, hx, List.mem_flatMap.mpr ⟨_, hqueue, ?_⟩⟩
    dsimp only
    rw [hleads]
    exact hone

theorem Still.copies (h : Still g w) : (flood g b w).copies = 0 := by
  have hqueues : onQueues g w = 0 := by
    refine Finset.sum_eq_zero fun v hv => ?_
    rw [h.queues v hv]
    rfl
  rw [flood_copies, hqueues, h.wire, h.relays]
  rfl

/-! ## Two servers and a node that joins -/

def nodeThree : ClusterNode := ⟨ascii "h", 80, 3⟩

/-- Servers 1 and 2 have a connection to each other, and can call node 3. -/
def pairWiring : Wiring where
  members := {1, 2, 3}
  leads v fd :=
    if v = 1 ∧ fd = 5 then some 2
    else if v = 2 ∧ fd = 6 then some 1
    else if fd = 8 ∧ (v = 1 ∨ v = 2) then some 3
    else none
  inside v fd u h := by
    split at h
    · obtain rfl := Option.some.inj h
      decide
    · split at h
      · obtain rfl := Option.some.inj h
        decide
      · split at h
        · obtain rfl := Option.some.inj h
          decide
        · exact absurd h (by simp)
  real v fd u h := by
    split at h
    · omega
    · split at h
      · omega
      · split at h
        · omega
        · exact absurd h (by simp)

def threeJoins : Batch where
  messages := {.nodeIn 7 nodeThree}
  ids _ hm _ hm' _ := (Finset.mem_singleton.mp hm).trans (Finset.mem_singleton.mp hm').symm
  joins _ hm _ hm' _ _ _ := (Finset.mem_singleton.mp hm).trans (Finset.mem_singleton.mp hm').symm

def pairServer (v : Uuid) : Membership where
  cluster := { selfNode := ⟨ascii "h", 81, v⟩ }
  peers :=
    if v = 1 then { connections := [(2, 5)], fdToUuid := [(5, 2)] }
    else if v = 2 then { connections := [(1, 6)], fdToUuid := [(6, 1)] }
    else {}

/-- Node 3 has sent its `NODEIN` to server 1. -/
def pairNetwork : Network where
  server := pairServer
  wire := [(1, (Message.nodeIn 7 nodeThree).text)]

/-- Server 1 handles it, sends a copy to server 2 and calls node 3; then server 2 does the same. -/
def pairRun : List Event :=
  [.read 0, .note 0 100, .relay 0, .settle 0, .send 1 0, .send 1 8, .send 1 0,
    .read 0, .note 0 100, .relay 0, .settle 0, .send 2 0, .send 2 8, .send 2 0, .read 0]

theorem launch_pairNetwork : Launch pairWiring threeJoins pairNetwork where
  texts m hm := by
    rw [Finset.mem_singleton.mp hm]
    show cr ∉ nodeThree.ip
    decide
  fresh v _ := ⟨OrderedMap.ordered_nil, fun _ _ => rfl⟩
  room v _ := by
    show 0 + 1 ≤ 1000
    decide
  sorted v _ := by
    show Ordered (pairServer v).peers.connections
    unfold pairServer
    dsimp only
    split
    · exact List.pairwise_singleton _ _
    · split
      · exact List.pairwise_singleton _ _
      · exact OrderedMap.ordered_nil
  queued v _ q hq := absurd hq List.not_mem_nil
  wire e he := by
    rw [List.mem_singleton.mp he]
    exact ⟨by decide, Or.inr ⟨_, Finset.mem_singleton_self _, rfl⟩⟩
  idle := ⟨rfl, rfl⟩

theorem lasting_pairNetwork : Lasting pairWiring threeJoins pairNetwork 1 2 := by
  refine ⟨by decide, fun id uuid hm => ?_, 5, by decide, by decide⟩
  exact absurd (Finset.mem_singleton.mp hm) (by simp)

theorem still_pairRun : Still pairWiring (exec pairWiring pairNetwork pairRun) where
  queues v hv := by
    obtain rfl | rfl | rfl : v = 1 ∨ v = 2 ∨ v = 3 := by simpa [pairWiring] using hv
    all_goals decide +kernel
  wire := by decide +kernel
  relays := by decide +kernel
  closing := by decide +kernel

/-- **Gossip ends.** In the minute after a batch of messages that no server has seen, of a size for
which the caches have room, however the workers of the servers come between each other, copies are
sent and read in any order, nodes get connected and other texts are sent: the servers hand messages
on at most so often, with a bound for all runs.

Several copies of a message may be let through at one server, since the check and the entry into the
cache are two steps. But each of them puts the message into the cache there before it is handed on,
and within the minute the cache forgets nothing. So the copies that it makes find fewer servers
where the message is not known than it did itself, which is what `Flood.potential` counts. -/
theorem flood_ends (g : Wiring) (b : Batch) (t₀ : UInt64) (w₀ : Network) (hlaunch : Launch g b w₀) :
    ∃ most, ∀ evs, Run.Along (step g) (InMinute t₀) w₀ evs →
      (exec g w₀ evs).handedOn ≤ most := by
  refine ⟨Flood.potential g.members (fanout g w₀) (flood g b w₀) + w₀.handedOn, fun evs htime => ?_⟩
  exact Nat.le_trans (Nat.le_add_left _ _) (hlaunch.along htime).bounded

theorem flood_ends_pairNetwork : ∃ most, ∀ evs,
    Run.Along (step pairWiring) (InMinute 0) pairNetwork evs →
      (exec pairWiring pairNetwork evs).handedOn ≤ most :=
  flood_ends pairWiring threeJoins 0 pairNetwork launch_pairNetwork

/-- **Gossip comes everywhere.** When such a run has come to a state where nothing is left to do: a
message of the batch that was on its way to one server has been handled at every server that
connections of the start lead to from there, if no message of the batch takes the nodes out.

A server that has handled a message has sent a copy to each node it was connected to, and a
connection of the start stays. When nothing is left to do, no copy is on its way any more, so those
nodes have handled it as well; and so on along the connections. -/
theorem flood_reaches (g : Wiring) (b : Batch) (t₀ : UInt64) (w₀ : Network) (evs : List Event)
    (hlaunch : Launch g b w₀) (htime : Run.Along (step g) (InMinute t₀) w₀ evs)
    (hstill : Still g (exec g w₀ evs)) (m : Message) (hm : m ∈ b.messages) (v u : Uuid)
    (hsent : Sent g w₀ v m) (hpath : Relation.ReflTransGen (Lasting g b w₀) v u) :
    ((exec g w₀ evs).server u).gossip.findGossip m.id = true := by
  have h := hlaunch.along htime
  have hheld := h.held v m (hlaunch.held hm hsent)
  exact (hheld.reaches h.closed hstill.copies hpath).2

theorem flood_reaches_pairRun :
    ((exec pairWiring pairNetwork pairRun).server 2).gossip.findGossip 7 = true :=
  flood_reaches pairWiring threeJoins 0 pairNetwork pairRun launch_pairNetwork (by decide +kernel)
    still_pairRun (.nodeIn 7 nodeThree) (Finset.mem_singleton_self _) 1 2
    (Or.inl List.mem_cons_self) (.single lasting_pairNetwork)

theorem Launch.told (h : Launch g b w₀) {v : Uuid} (hv : v ∈ g.members) {evs : List Event}
    (htime : Run.Along (Network.step g) (InMinute t₀) w₀ evs) :
    Told g b w₀ (exec g w₀ evs) v := by
  have hstart : Told g b w₀ w₀ v := by
    refine ⟨[], rfl, by simp, fun m hknown => ?_⟩
    have hunseen := (h.fresh v hv).2 m hknown.1
    exact absurd (hunseen.symm.trans hknown.2) Bool.false_ne_true
  exact (Run.Along.invariant (I := fun w => Flooded g b t₀ w₀ w ∧ Told g b w₀ w v)
    (fun _ _ hev hw => ⟨hw.1.step h hev, hw.2.step h hw.1.kept hev⟩) htime
    ⟨h.flooded t₀, hstart⟩).2

/-- The effects of the whole batch, when nothing is left to do. -/
theorem Launch.effects (h : Launch g b w₀) {u : Uuid} (hu : u ∈ g.members) {evs : List Event}
    (htime : Run.Along (Network.step g) (InMinute t₀) w₀ evs) (hstill : Still g (exec g w₀ evs))
    (hall : ∀ m ∈ b.messages, ∃ v, Sent g w₀ v m ∧ Relation.ReflTransGen (Lasting g b w₀) v u) :
    ∃ es : List Message, (∀ m, m ∈ es ↔ m ∈ b.messages) ∧ ((exec g w₀ evs).server u).cluster.topo
      = (Run.exec Message.effect (w₀.server u).cluster es).topo := by
  obtain ⟨es, hes, hin, hknown⟩ := h.told hu htime
  refine ⟨es, fun m => ⟨hin m, fun hm => ?_⟩, hes⟩
  obtain ⟨v, hsent, hpath⟩ := hall m hm
  have hflooded := h.along htime
  have hmem := ((hflooded.held v m (h.held hm hsent)).reaches hflooded.closed hstill.copies hpath)
  rcases hknown m hmem with hes | hclosing | ⟨r, hr, -⟩
  · exact hes
  · rw [hstill.closing] at hclosing
    exact absurd hclosing List.not_mem_nil
  · rw [hstill.relays] at hr
    exact absurd hr List.not_mem_nil

/-- **Gossip leaves the servers with one topology.** When nothing is left to do, and each message of
the batch was on its way to a server that connections lead from: two servers that had the same
topology have the same topology again, if the joins are undisturbed. It has the nodes that have
joined, and of the others those that are no message's target.

By then each server has handled each message of the batch. Each of them writes the topology at its
own node only, and the order in which a server handled them makes no difference where the joins are
undisturbed (`Batch.Converges`). -/
theorem flood_agrees (g : Wiring) (b : Batch) (t₀ : UInt64) (w₀ : Network) (evs : List Event)
    (hlaunch : Launch g b w₀) (htime : Run.Along (step g) (InMinute t₀) w₀ evs)
    (hstill : Still g (exec g w₀ evs)) (hfree : Message.Undisturbed b.messages)
    (u u' : Uuid) (hu : u ∈ g.members) (hu' : u' ∈ g.members)
    (hall : ∀ x, x = u ∨ x = u' → ∀ m ∈ b.messages, ∃ v, Sent g w₀ v m ∧
      Relation.ReflTransGen (Lasting g b w₀) v x)
    (hordered : Ordered (w₀.server u).cluster.topo)
    (hsame : (w₀.server u').cluster.topo = (w₀.server u).cluster.topo) :
    ((exec g w₀ evs).server u').cluster.topo = ((exec g w₀ evs).server u).cluster.topo ∧
      ∀ x node, (x, node) ∈ ((exec g w₀ evs).server u).cluster.topo ↔
        (∃ id, .nodeIn id node ∈ b.messages ∧ node.uuid = x) ∨
          ((x, node) ∈ (w₀.server u).cluster.topo ∧ ∀ m ∈ b.messages, x ≠ m.target) := by
  obtain ⟨es, hes, htopo⟩ := hlaunch.effects hu htime hstill (hall u (Or.inl rfl))
  obtain ⟨es', hes', htopo'⟩ := hlaunch.effects hu' htime hstill (hall u' (Or.inr rfl))
  have hordered' : Ordered (w₀.server u').cluster.topo := hsame ▸ hordered
  have hmem : ∀ x node, (x, node) ∈ (Run.exec Message.effect (w₀.server u).cluster es).topo ↔ _ :=
    fun x node => Message.mem_topo_effects hordered hfree fun m => (hes m).mp
  rw [htopo, htopo']
  constructor
  · refine (Message.ordered_topo_effects hordered' es').ext
      (Message.ordered_topo_effects hordered es) fun ⟨x, node⟩ => ?_
    rw [hmem, Message.mem_topo_effects hordered' hfree fun m => (hes' m).mp, hsame]
    simp only [hes, hes']
  · intro x node
    rw [hmem]
    simp only [hes]

theorem undisturbed_threeJoins : Message.Undisturbed threeJoins.messages := by
  intro m hm u hu
  rw [Finset.mem_singleton.mp hm] at hu
  obtain ⟨p, hp⟩ := List.exists_mem_of_ne_nil (Cluster.pointsOf u) (by
    rw [Cluster.pointsOf, Cluster.virtualReplicas, List.iterate]
    exact List.cons_ne_nil _ _)
  refine ⟨p, hp, fun m' hm' hne => absurd ?_ hne⟩
  rw [Finset.mem_singleton.mp hm, Finset.mem_singleton.mp hm']

/-- Both servers have node 3 in their topologies. -/
theorem flood_agrees_pairRun :
    ((exec pairWiring pairNetwork pairRun).server 2).cluster.topo
      = ((exec pairWiring pairNetwork pairRun).server 1).cluster.topo ∧
    (3, nodeThree) ∈ ((exec pairWiring pairNetwork pairRun).server 1).cluster.topo := by
  have hagrees := flood_agrees pairWiring threeJoins 0 pairNetwork pairRun launch_pairNetwork
    (by decide +kernel) still_pairRun undisturbed_threeJoins 1 2 (by decide) (by decide)
    (fun x hx m hm => ⟨1, by
      rw [Finset.mem_singleton.mp hm]
      exact Or.inl List.mem_cons_self, by
      rcases hx with rfl | rfl
      · exact .refl
      · exact .single lasting_pairNetwork⟩)
    OrderedMap.ordered_nil rfl
  refine ⟨hagrees.1, (hagrees.2 3 nodeThree).mpr (Or.inl ⟨7, ?_, rfl⟩)⟩
  exact Finset.mem_singleton_self _

end Network

end Server
end KvJet
