import MonitoringAgent.Packet

/-! `sender.c`: one post of a packet and what the reply leaves in it. -/
namespace MonitoringAgent

open Buffer

/-- What the transfer of one post does: the pieces of the body as libcurl would hand
them to the write callback, whether the transfer succeeds apart from the callback,
and the HTTP status. -/
structure Reply where
  chunks : List Text
  curlOk : Bool
  status : Nat

/-- `ETARGETREG`. -/
def etargetreg : Int := 302

/-- The loop of `callback`: any byte counts as a digit, `char` is signed and the sum
is an `int`. -/
def responseCode (ptr : Text) : Int :=
  ptr.foldl (fun code c => (code * 10 + (c.toInt8.toInt - 48)).bmod (2 ^ 32)) 0

/-- `callback`: the response code it stores and the number it returns. -/
def callback (ptr : Text) : Int × Nat := (responseCode ptr, 0)

/-- libcurl gives the callback one piece after the other and fails the transfer at the
first one for which it returns another number than the length. -/
def deliver : List Text → Int → Int × Bool
  | [], response => (response, true)
  | ptr :: rest, _ =>
    if (callback ptr).2 = ptr.length then deliver rest (callback ptr).1
    else ((callback ptr).1, false)

/-- `post`: the packet afterwards and whether the function returned 0. -/
def post (pkt : Packet) (r : Reply) : Packet × Bool :=
  let pkt := { pkt with attempt := pkt.attempt + 1 }
  -- `packet_fetch` gives the payload of a READY packet only.
  if pkt.state = .ready then
    let (response, written) := deliver r.chunks pkt.response
    ({ pkt with response := response },
      written && r.curlOk && (r.status = 202 || r.status = 200))
  else (pkt, false)

/-- The reply makes `post` return 0. -/
def Reply.success (r : Reply) : Bool :=
  (deliver r.chunks 0).2 && r.curlOk && (r.status = 202 || r.status = 200)

theorem post_frame (pkt : Packet) (r : Reply) :
    (post pkt r).1.type = pkt.type ∧ (post pkt r).1.state = pkt.state ∧
      (post pkt r).1.size = pkt.size ∧ (post pkt r).1.rollbackPoint = pkt.rollbackPoint ∧
      (post pkt r).1.payload = pkt.payload := by
  unfold post
  dsimp only
  split <;> exact ⟨rfl, rfl, rfl, rfl, rfl⟩

@[simp] theorem text_post (pkt : Packet) (r : Reply) : (post pkt r).1.text = pkt.text := by
  obtain ⟨_, _, hsize, _, hpayload⟩ := post_frame pkt r
  rw [Packet.text, Packet.text, hsize, hpayload]

theorem deliver_of_ne_nil {chunks : List Text} (h : chunks ≠ []) (r r' : Int) :
    deliver chunks r = deliver chunks r' := by
  cases chunks with
  | nil => exact absurd rfl h
  | cons ptr rest => rfl

theorem deliver_snd (chunks : List Text) (r r' : Int) :
    (deliver chunks r).2 = (deliver chunks r').2 := by
  cases chunks with
  | nil => rfl
  | cons ptr rest => rfl

/-- A READY packet: what the reply alone decides, and the response it leaves. -/
theorem post_of_ready {pkt : Packet} (h : pkt.state = .ready) (r : Reply) :
    (post pkt r).2 = r.success ∧
      (post pkt r).1.response = if r.chunks = [] then pkt.response else (deliver r.chunks 0).1 := by
  unfold post
  dsimp only
  rw [if_pos h]
  refine ⟨?_, ?_⟩
  · rw [Reply.success, deliver_snd r.chunks pkt.response 0]
  · by_cases hnil : r.chunks = []
    · rw [if_pos hnil, hnil]
      rfl
    · rw [if_neg hnil, deliver_of_ne_nil hnil pkt.response 0]

end MonitoringAgent
