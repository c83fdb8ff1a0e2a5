import Nitr.Http.Cors

/-! # Compressed bodies

`CompressedBody` of `compress.rs` polled to its end. The encoder is given: what it writes, and
what it appends when it is finished, decode to what went in. -/

namespace Nitr.Compress

open Nitr.Http (Text)

abbrev Bytes := List UInt8

/-- An encoder that writes to a buffer. -/
structure Encoder where
  State : Type
  start : State
  /-- `write_all` and `flush`, then the bytes taken from the buffer. -/
  write : State → Bytes → Except String (Bytes × State)
  /-- `into_inner` or `finish`: the bytes that end the stream. -/
  finish : State → Except String Bytes
  decode : Bytes → Option Bytes

inductive Frame where
  | data (bytes : Bytes)
  | trailers (fields : List (Text × Text))
deriving DecidableEq

inductive Poll (α : Type) where
  | pending
  | ready (a : α)
deriving DecidableEq

def Poll.frame? {α : Type} : Poll α → Option α
  | pending => none
  | ready a => some a

variable (enc : Encoder)

/-- A body: the polls its inner body still answers before it ends, and the encoder. -/
structure CompressedBody where
  inner : List (Poll Frame)
  encoder : Option enc.State

namespace CompressedBody

variable {enc}

def new (inner : List (Poll Frame)) : CompressedBody enc := ⟨inner, some enc.start⟩

def write (encoder : Option enc.State) (data : Bytes) : Except String (Bytes × Option enc.State) :=
  match encoder with
  | none => .ok ([], none)
  | some st => (enc.write st data).map fun (out, st) => (out, some st)

/-- The end of the inner body. -/
def finish (encoder : Option enc.State) : Except String Bytes :=
  match encoder with
  | none => .ok []
  | some st => enc.finish st

/-- The loop of `poll_frame`. -/
def pollLoop : List (Poll Frame) → Option enc.State → Poll (Option Frame) × CompressedBody enc
  | inner, none => (.ready none, ⟨inner, none⟩)
  | .pending :: inner, some st => (.pending, ⟨inner, some st⟩)
  | .ready (.trailers fields) :: inner, some st =>
      (.ready (some (.trailers fields)), ⟨inner, some st⟩)
  | .ready (.data data) :: inner, some st =>
      match write (some st) data with
      -- the encoder kept everything
      | .ok ([], encoder) => pollLoop inner encoder
      | .ok (out, encoder) => (.ready (some (.data out)), ⟨inner, encoder⟩)
      | .error _ => (.ready none, ⟨inner, none⟩)
  | [], some st =>
      match finish (some st) with
      | .ok [] => (.ready none, ⟨[], none⟩)
      | .ok tail => (.ready (some (.data tail)), ⟨[], none⟩)
      | .error _ => (.ready none, ⟨[], none⟩)

def pollFrame (body : CompressedBody enc) : Poll (Option Frame) × CompressedBody enc :=
  pollLoop body.inner body.encoder

/-- The answer to the poll after `n` others. -/
def answer (body : CompressedBody enc) (n : ℕ) : Poll (Option Frame) :=
  ((fun b => b.pollFrame.2)^[n] body).pollFrame.1

/-- The frames of the first `n` polls. -/
def frames (body : CompressedBody enc) (n : ℕ) : List Frame :=
  (List.range n).filterMap fun k => (body.answer k).frame?.join

/-- Polling ends with the poll after `n` others, and stays ended. -/
def EndsAt (body : CompressedBody enc) (n : ℕ) : Prop :=
  (∀ k < n, body.answer k ≠ .ready none) ∧ ∀ k, n ≤ k → body.answer k = .ready none

end CompressedBody

/-! ## What is asked of the bodies -/

/-- An inner body: data, then trailers if it has any, with pending polls anywhere. -/
structure Inner where
  data : List Bytes
  trailers : Option (List (Text × Text))
  polls : List (Poll Frame)
  shape : polls.filterMap Poll.frame? =
    data.map Frame.data ++ trailers.toList.map Frame.trailers

namespace Encoder

/-- What the encoder writes for some data, and its state after it. -/
def writes : enc.State → List Bytes → Except String (List Bytes × enc.State)
  | st, [] => .ok ([], st)
  | st, data :: rest =>
      (enc.write st data).bind fun (out, st) =>
        (writes st rest).map fun (outs, st) => (out :: outs, st)

/-- The bytes that end the stream after some data. -/
def tail (data : List Bytes) : Except String Bytes :=
  (enc.writes enc.start data).bind fun (_, st) => enc.finish st

/-- The outputs for any data, and the bytes that end the stream, decode to the data. -/
def Lossless : Prop := ∀ data, ∃ outs st tail, enc.writes enc.start data = .ok (outs, st) ∧
  enc.finish st = .ok tail ∧ enc.decode (outs.flatten ++ tail) = some data.flatten

end Encoder

/-- Polled to its end, which comes once, the body has sent data frames that are not empty and
decode to the inner data, then the inner trailers. -/
def Framed (inner : Inner) : Prop :=
  ∃ n, let body : CompressedBody enc := .new inner.polls
    body.EndsAt n ∧ ∃ chunks : List Bytes, [] ∉ chunks ∧
      enc.decode chunks.flatten = some inner.data.flatten ∧
        body.frames n = chunks.map Frame.data ++ inner.trailers.toList.map Frame.trailers

/-! ## The frames of a run -/

variable {enc}

/-- A data frame, unless it is empty. -/
def dataFrame (bytes : Bytes) : List Frame := if bytes = [] then [] else [.data bytes]

/-- The frames sent for those of the inner body. -/
def Encoder.sent (enc : Encoder) : enc.State → List Frame → Except String (List Frame)
  | st, [] => (enc.finish st).map dataFrame
  | st, .trailers fields :: fs => (enc.sent st fs).map (.trailers fields :: ·)
  | st, .data data :: fs =>
      (enc.write st data).bind fun (out, st) => (enc.sent st fs).map (dataFrame out ++ ·)

/-- Polled to its end, the body sends the frames. -/
inductive Drains : CompressedBody enc → List Frame → Prop
  | ended {body} (last : body.pollFrame.1 = .ready none)
      (done : body.pollFrame.2.encoder = none) : Drains body []
  | pending {body fs} (h : body.pollFrame.1 = .pending) (rest : Drains body.pollFrame.2 fs) :
      Drains body fs
  | frame {body f fs} (h : body.pollFrame.1 = .ready (some f)) (rest : Drains body.pollFrame.2 fs) :
      Drains body (f :: fs)

theorem Drains.congr {body body' : CompressedBody enc} {fs : List Frame} (h : Drains body fs)
    (hpoll : body'.pollFrame = body.pollFrame) : Drains body' fs := by
  cases h with
  | ended last done => exact .ended (hpoll ▸ last) (hpoll ▸ done)
  | pending h rest => exact .pending (hpoll ▸ h) (hpoll ▸ rest)
  | frame h rest => exact .frame (hpoll ▸ h) (hpoll ▸ rest)

theorem exists_of_map_eq_ok {α β : Type} {x : Except String α} {f : α → β} {b : β}
    (h : x.map f = .ok b) : ∃ a, x = .ok a ∧ f a = b := by
  cases x with
  | error err => cases h
  | ok a => exact ⟨a, rfl, Except.ok.inj h⟩

theorem pollFrame_end {st : enc.State} {tail : Bytes} (h : enc.finish st = .ok tail) :
    (CompressedBody.pollFrame ⟨[], some st⟩ : _ × CompressedBody enc) =
      (.ready (if tail = [] then none else some (.data tail)), ⟨[], none⟩) := by
  simp only [CompressedBody.pollFrame, CompressedBody.pollLoop, CompressedBody.finish, h]
  cases tail with
  | nil => rfl
  | cons byte tail => rfl

theorem pollFrame_data {st st' : enc.State} {data out : Bytes} {polls : List (Poll Frame)}
    (h : enc.write st data = .ok (out, st')) :
    (CompressedBody.pollFrame ⟨.ready (.data data) :: polls, some st⟩ : _ × CompressedBody enc) =
      if out = [] then CompressedBody.pollFrame ⟨polls, some st'⟩
      else (.ready (some (.data out)), ⟨polls, some st'⟩) := by
  simp only [CompressedBody.pollFrame, CompressedBody.pollLoop, CompressedBody.write, h,
    Except.map]
  cases out with
  | nil => rfl
  | cons byte out => rfl

/-- The run of a body, by its inner polls. -/
theorem drains_of_sent {polls : List (Poll Frame)} {st : enc.State} {fs : List Frame}
    (h : enc.sent st (polls.filterMap Poll.frame?) = .ok fs) :
    Drains ⟨polls, some st⟩ fs := by
  induction polls generalizing st fs with
  | nil =>
      obtain ⟨tail, htail, rfl⟩ := exists_of_map_eq_ok h
      have hpoll := pollFrame_end htail
      unfold dataFrame
      by_cases hempty : tail = []
      · rw [if_pos hempty] at hpoll ⊢
        exact .ended (hpoll ▸ rfl) (hpoll ▸ rfl)
      · rw [if_neg hempty] at hpoll ⊢
        refine .frame (congrArg Prod.fst hpoll) ?_
        rw [hpoll]
        exact .ended rfl rfl
  | cons poll polls ih =>
      cases poll with
      | pending => exact .pending rfl (ih h)
      | ready f =>
          cases f with
          | trailers fields =>
              obtain ⟨fs, hfs, rfl⟩ := exists_of_map_eq_ok h
              exact .frame rfl (ih hfs)
          | data data =>
              have hsent : ((enc.write st data).bind fun (out, st) =>
                  (enc.sent st (polls.filterMap Poll.frame?)).map (dataFrame out ++ ·)) = .ok fs := h
              cases hwrite : enc.write st data with
              | error err =>
                  rw [hwrite] at hsent
                  cases hsent
              | ok written =>
                  rw [hwrite] at hsent
                  obtain ⟨fs, hfs, rfl⟩ := exists_of_map_eq_ok hsent
                  have hpoll := @pollFrame_data enc st written.2 data written.1 polls hwrite
                  unfold dataFrame
                  by_cases hempty : written.1 = []
                  · rw [if_pos hempty] at hpoll ⊢
                    exact (ih hfs).congr hpoll
                  · rw [if_neg hempty] at hpoll ⊢
                    refine .frame (congrArg Prod.fst hpoll) ?_
                    rw [hpoll]
                    exact ih hfs

/-! ## The answers of a run -/

namespace CompressedBody

theorem answer_of_done {body : CompressedBody enc} (h : body.encoder = none) (n : ℕ) :
    body.answer n = .ready none := by
  induction n generalizing body with
  | zero =>
      obtain ⟨inner, encoder⟩ := body
      obtain rfl : encoder = none := h
      cases inner <;> rfl
  | succ n ih =>
      have hnext : body.pollFrame.2.encoder = none := by
        obtain ⟨inner, encoder⟩ := body
        obtain rfl : encoder = none := h
        cases inner <;> rfl
      exact ih hnext

theorem frames_succ (body : CompressedBody enc) (n : ℕ) : body.frames (n + 1) =
    (body.answer 0).frame?.join.toList ++ body.pollFrame.2.frames n := by
  rw [frames, List.range_succ_eq_map, List.filterMap_cons, List.filterMap_map]
  cases (body.answer 0).frame?.join <;> rfl

theorem EndsAt.succ {body : CompressedBody enc} {n : ℕ} (hfirst : body.answer 0 ≠ .ready none)
    (h : body.pollFrame.2.EndsAt n) : body.EndsAt (n + 1) := by
  constructor
  · intro k hk
    cases k with
    | zero => exact hfirst
    | succ k => exact h.1 k (by omega)
  · intro k hk
    cases k with
    | zero => omega
    | succ k => exact h.2 k (by omega)

theorem EndsAt.unique {body : CompressedBody enc} {n n' : ℕ} (h : body.EndsAt n)
    (h' : body.EndsAt n') : n = n' := by
  rcases lt_trichotomy n n' with hlt | heq | hlt
  · exact absurd (h.2 n (le_refl n)) (h'.1 n hlt)
  · exact heq
  · exact absurd (h'.2 n' (le_refl n')) (h.1 n' hlt)

end CompressedBody

/-- A body that drains ends once. -/
theorem Drains.exists_end {body : CompressedBody enc} {fs : List Frame} (h : Drains body fs) :
    ∃ n, body.EndsAt n ∧ body.frames n = fs := by
  induction h with
  | ended last done =>
      refine ⟨0, ⟨by simp, ?_⟩, rfl⟩
      intro k _
      cases k with
      | zero => exact last
      | succ k => exact CompressedBody.answer_of_done done k
  | @pending body fs h _ ih =>
      obtain ⟨n, hend, hframes⟩ := ih
      have hzero : body.answer 0 = .pending := h
      refine ⟨n + 1, hend.succ (by simp [hzero]), ?_⟩
      rw [CompressedBody.frames_succ, hzero, hframes]
      rfl
  | @frame body f fs h _ ih =>
      obtain ⟨n, hend, hframes⟩ := ih
      have hzero : body.answer 0 = .ready (some f) := h
      refine ⟨n + 1, hend.succ (by simp [hzero]), ?_⟩
      rw [CompressedBody.frames_succ, hzero, hframes]
      rfl

/-! ## Framing -/

/-- The chunks of some outputs: those that are not empty. -/
def chunks (outs : List Bytes) : List Bytes := outs.filter (· ≠ [])

theorem chunks_cons (out : Bytes) (outs : List Bytes) :
    chunks (out :: outs) = if out = [] then chunks outs else out :: chunks outs := by
  rw [chunks, List.filter_cons]
  by_cases hempty : out = []
  · simp [hempty, chunks]
  · simp [hempty, chunks]

theorem flatMap_dataFrame (outs : List Bytes) :
    outs.flatMap dataFrame = (chunks outs).map Frame.data := by
  induction outs with
  | nil => rfl
  | cons out outs ih =>
      rw [List.flatMap_cons, ih, chunks_cons, dataFrame]
      split <;> rfl

theorem flatten_chunks (outs : List Bytes) : (chunks outs).flatten = outs.flatten := by
  induction outs with
  | nil => rfl
  | cons out outs ih =>
      rw [chunks_cons, List.flatten_cons, ← ih]
      split
      · rename_i hempty
        rw [hempty, List.nil_append]
      · rfl

theorem nil_not_mem_chunks (outs : List Bytes) : [] ∉ chunks outs := by simp [chunks]

theorem sent_data {st st' : enc.State} {data outs : List Bytes} {fs fs' : List Frame}
    (hwrites : enc.writes st data = .ok (outs, st')) (hsent : enc.sent st' fs = .ok fs') :
    enc.sent st (data.map Frame.data ++ fs) = .ok (outs.flatMap dataFrame ++ fs') := by
  induction data generalizing st outs with
  | nil =>
      cases hwrites
      exact hsent
  | cons d data ih =>
      have hbind : ((enc.write st d).bind fun (out, st) =>
          (enc.writes st data).map fun (outs, st) => (out :: outs, st)) = .ok (outs, st') := hwrites
      change ((enc.write st d).bind fun (out, st) =>
        (enc.sent st (data.map Frame.data ++ fs)).map (dataFrame out ++ ·)) = _
      cases hwrite : enc.write st d with
      | error err =>
          rw [hwrite] at hbind
          cases hbind
      | ok written =>
          rw [hwrite] at hbind
          obtain ⟨⟨outs, st''⟩, hrest, heq⟩ := exists_of_map_eq_ok hbind
          cases heq
          simp only [Except.bind, ih hrest, Except.map, List.flatMap_cons, List.append_assoc]

/-- What a body sends: the outputs, the trailers, and after them the end of the stream. -/
theorem sent_inner (inner : Inner) {outs : List Bytes} {st : enc.State} {tail : Bytes}
    (hwrites : enc.writes enc.start inner.data = .ok (outs, st)) (htail : enc.finish st = .ok tail) :
    enc.sent enc.start (inner.polls.filterMap Poll.frame?) = .ok ((chunks outs).map Frame.data ++
      (inner.trailers.toList.map Frame.trailers ++ dataFrame tail)) := by
  have hend : enc.sent st (inner.trailers.toList.map Frame.trailers) =
      .ok (inner.trailers.toList.map Frame.trailers ++ dataFrame tail) := by
    cases inner.trailers with
    | none => simp [Encoder.sent, htail, Except.map]
    | some fields => simp [Encoder.sent, htail, Except.map]
  rw [inner.shape, sent_data hwrites hend, flatMap_dataFrame]

/-- After trailers, a body still sends the end of the stream. -/
theorem not_framed (inner : Inner) {outs : List Bytes} {st : enc.State} {tail : Bytes}
    {fields : List (Text × Text)} (hwrites : enc.writes enc.start inner.data = .ok (outs, st))
    (hfinish : enc.finish st = .ok tail) (hempty : tail ≠ [])
    (hfields : inner.trailers = some fields) : ¬Framed enc inner := by
  obtain ⟨n, hend, hframes⟩ := (drains_of_sent (sent_inner inner hwrites hfinish)).exists_end
  rintro ⟨n', hend', chunks', -, -, hframes'⟩
  obtain rfl := hend.unique hend'
  have hlast := congrArg List.getLast? (hframes.symm.trans hframes')
  rw [hfields, dataFrame, if_neg hempty] at hlast
  simp at hlast

/-- The framing is lossless unless the end of the stream comes after trailers. -/
theorem framed_iff (h : enc.Lossless) (inner : Inner) :
    Framed enc inner ↔ inner.trailers = none ∨ enc.tail inner.data = .ok [] := by
  obtain ⟨outs, st, tail, hwrites, hfinish, hdecode⟩ := h inner.data
  have htail : enc.tail inner.data = .ok tail := by
    rw [Encoder.tail, hwrites]
    exact hfinish
  rw [htail]
  constructor
  · intro hframed
    by_contra hnot
    rw [not_or] at hnot
    obtain ⟨fields, hfields⟩ := Option.ne_none_iff_exists'.mp hnot.1
    exact not_framed inner hwrites hfinish (fun heq => hnot.2 (congrArg _ heq)) hfields hframed
  · intro hcase
    obtain ⟨n, hend, hframes⟩ := (drains_of_sent (sent_inner inner hwrites hfinish)).exists_end
    have hlast : inner.trailers.toList.map Frame.trailers ++ dataFrame tail =
        dataFrame tail ++ inner.trailers.toList.map Frame.trailers := by
      rcases hcase with hnone | hempty
      · simp [hnone]
      · cases hempty
        simp [dataFrame]
    refine ⟨n, hend, chunks (outs ++ [tail]), nil_not_mem_chunks _, ?_, ?_⟩
    · rw [flatten_chunks, List.flatten_append, List.flatten_singleton, hdecode]
    · refine hframes.trans ?_
      rw [hlast, ← flatMap_dataFrame, ← flatMap_dataFrame, List.flatMap_append]
      simp

/-- The `gzip` stream of no data. -/
def emptyGzip : Bytes :=
  [0x1f, 0x8b, 8, 0, 0, 0, 0, 0, 4, 0xff, 3, 0, 0, 0, 0, 0, 0, 0, 0, 0]

def decodeKept (bytes : Bytes) : Option Bytes :=
  if bytes = emptyGzip then some [] else some bytes.tail

/-- An encoder that keeps its data to the end, with the stream of `gzip` where there is none. -/
def keeping : Encoder where
  State := Bytes
  start := []
  write kept data := .ok ([], kept ++ data)
  finish kept := .ok (if kept = [] then emptyGzip else 0 :: kept)
  decode := decodeKept

theorem keeping_writes (kept : Bytes) (data : List Bytes) :
    keeping.writes kept data = .ok (data.map fun _ => [], kept ++ data.flatten) := by
  induction data generalizing kept with
  | nil => exact congrArg (fun st => Except.ok ([], st)) (List.append_nil kept).symm
  | cons d data ih =>
      change ((keeping.writes (kept ++ d) data).map _) = _
      rw [ih, List.append_assoc]
      rfl

theorem keeping_lossless : keeping.Lossless := by
  intro data
  refine ⟨_, _, _, keeping_writes [] data, rfl, ?_⟩
  have houts : (data.map fun _ => ([] : Bytes)).flatten = [] := by
    induction data with
    | nil => rfl
    | cons d data ih => exact ih
  rw [houts, List.nil_append, List.nil_append]
  by_cases hempty : data.flatten = []
  · rw [hempty]
    rfl
  · have hfirst : 0 :: data.flatten ≠ emptyGzip := fun heq => by cases (List.cons.inj heq).1
    have hdecode : decodeKept (0 :: data.flatten) = some data.flatten := by
      rw [decodeKept, if_neg hfirst, List.tail_cons]
    rw [if_neg hempty]
    exact hdecode

/-- A body of nothing but trailers. -/
def onlyTrailers : Inner where
  data := []
  trailers := some [("x-sum".toList, "0".toList)]
  polls := [.pending, .ready (.trailers [("x-sum".toList, "0".toList)])]
  shape := rfl

theorem framed_only_trailers : Framed keeping onlyTrailers ↔
    onlyTrailers.trailers = none ∨ keeping.tail onlyTrailers.data = .ok [] :=
  framed_iff keeping_lossless onlyTrailers

theorem only_trailers_not_framed : keeping.Lossless ∧ ¬Framed keeping onlyTrailers :=
  ⟨keeping_lossless, not_framed onlyTrailers (keeping_writes [] []) rfl (by decide) rfl⟩

end Nitr.Compress
