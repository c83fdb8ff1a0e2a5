import Nitr.Http.BodyRead

/-! # What the reads of a body return

Any sequence of reads, also one that goes on after a failed read, returns whole frames of
the body in order and at most the limit. -/

namespace Nitr.Reading

/-! ## The data of frames -/

def Frame.data? : Frame → Option Bytes
  | .data bytes => some bytes
  | _ => none

/-- The data frames among some frames. -/
def dataOf (frames : List Frame) : List Bytes := frames.filterMap Frame.data?

@[simp]
theorem dataOf_append (l₁ l₂ : List Frame) : dataOf (l₁ ++ l₂) = dataOf l₁ ++ dataOf l₂ :=
  List.filterMap_append

/-- The number of bytes in some frames. -/
def size (frames : List Frame) : ℕ := (dataOf frames).flatten.length

@[simp]
theorem size_nil : size [] = 0 := rfl

@[simp]
theorem size_append (l₁ l₂ : List Frame) : size (l₁ ++ l₂) = size l₁ + size l₂ := by
  simp [size]

theorem length_flatten_le_of_sublist {l₁ l₂ : List Bytes} (h : l₁.Sublist l₂) :
    l₁.flatten.length ≤ l₂.flatten.length := h.flatten.length_le

/-! ## The frame loop -/

/-- The flag is set once more bytes than the limit have been counted. -/
def Guards.Flagged (limit : ℕ) (guards : Guards) : Prop :=
  guards.oversized = decide (limit < guards.read)

/-- What the loop does to the frames `taken`, those it took off the body. -/
structure Pulls (limit : ℕ) (enough : List Bytes → Bool) (frames : List Frame) (guards : Guards)
    (buf : List Bytes) (taken : List Frame) (pulled : Pulled) : Prop where
  frames : frames = taken ++ pulled.rest
  read : pulled.guards.read = guards.read + size taken
  flagged : guards.Flagged limit → pulled.guards.Flagged limit
  kept : ∀ buf', pulled.result = .ok buf' → buf' = buf ++ dataOf taken
  within : ∀ buf', pulled.result = .ok buf' → dataOf taken ≠ [] → pulled.guards.read ≤ limit
  ended : ∀ buf', pulled.result = .ok buf' → enough buf' = false → pulled.rest = []
  stopped : ∀ init last, dataOf taken = init ++ [last] → pulled.result.isOk = true →
    enough (buf ++ init) = false

theorem pull_cons_ok {limit : ℕ} {enough : List Bytes → Bool} {frame : Frame} {rest : List Frame}
    {guards guards' : Guards} {buf : List Bytes} {bytes : Option Bytes}
    (henough : enough buf = false) (hpoll : pollFrame limit guards frame = (.ok bytes, guards')) :
    pull limit enough (frame :: rest) guards buf =
      pull limit enough rest guards' (buf ++ bytes.toList) := by
  rw [pull, henough]
  simp only [Bool.false_eq_true, if_false, hpoll]
  cases bytes with
  | none => simp
  | some bytes => simp

/-- A frame that is delivered. -/
theorem pollFrame_ok {limit : ℕ} {guards guards' : Guards} {frame : Frame} {bytes : Option Bytes}
    (h : pollFrame limit guards frame = (.ok bytes, guards')) :
    bytes.toList = dataOf [frame] ∧ guards'.read = guards.read + size [frame] ∧
      (guards.Flagged limit → guards'.Flagged limit) ∧
      (dataOf [frame] ≠ [] → guards'.read ≤ limit) := by
  cases frame with
  | data b =>
      simp only [pollFrame] at h
      split at h
      · cases h
      · rename_i hlimit
        cases h
        have hread : ¬limit < guards.read := by omega
        refine ⟨rfl, by simp [size, dataOf, Frame.data?], ?_, fun _ => Nat.le_of_not_lt hlimit⟩
        intro hflagged
        simpa [Guards.Flagged, hlimit, hread] using hflagged
  | trailers =>
      cases h
      exact ⟨rfl, rfl, id, by simp [dataOf, Frame.data?]⟩
  | stalled => cases h
  | broken => cases h

/-- A frame that fails the read. -/
theorem pollFrame_error {limit : ℕ} {guards guards' : Guards} {frame : Frame} {e : BodyError}
    (h : pollFrame limit guards frame = (.error e, guards')) :
    guards'.read = guards.read + size [frame] ∧
      (guards.Flagged limit → guards'.Flagged limit) := by
  cases frame with
  | data b =>
      simp only [pollFrame] at h
      split at h
      · rename_i hlimit
        cases h
        exact ⟨by simp [size, dataOf, Frame.data?], fun _ => by simp [Guards.Flagged, hlimit]⟩
      · cases h
  | trailers => cases h
  | stalled =>
      cases h
      exact ⟨rfl, id⟩
  | broken =>
      cases h
      exact ⟨rfl, id⟩

/-- The loop takes a run of frames off the body and keeps all their data, or fails. -/
theorem pull_spec (limit : ℕ) (enough : List Bytes → Bool) (frames : List Frame)
    (guards : Guards) (buf : List Bytes) :
    ∃ taken, Pulls limit enough frames guards buf taken (pull limit enough frames guards buf) := by
  induction frames generalizing guards buf with
  | nil =>
      refine ⟨[], ?_⟩
      rw [pull]
      by_cases henough : enough buf = true
      · rw [if_pos henough]
        constructor <;> simp [dataOf]
      · rw [if_neg henough]
        constructor <;> simp [dataOf]
  | cons frame rest ih =>
      by_cases henough : enough buf = true
      · refine ⟨[], ?_⟩
        rw [pull, if_pos henough]
        constructor <;> simp [dataOf, henough]
      · rw [Bool.not_eq_true] at henough
        cases hpoll : pollFrame limit guards frame with
        | mk result guards' =>
            cases result with
            | error e =>
                refine ⟨[frame], ?_⟩
                rw [pull, henough]
                simp only [Bool.false_eq_true, if_false, hpoll]
                obtain ⟨hread, hflagged⟩ := pollFrame_error hpoll
                exact ⟨rfl, hread, hflagged, by simp, by simp, by simp, by simp [Except.isOk,
                  Except.toBool]⟩
            | ok bytes =>
                obtain ⟨hbytes, hread, hflagged, hwithin⟩ := pollFrame_ok hpoll
                obtain ⟨taken, h⟩ := ih guards' (buf ++ bytes.toList)
                rw [pull_cons_ok henough hpoll]
                have hsize : size (frame :: taken) = size [frame] + size taken :=
                  size_append [frame] taken
                have hdata : dataOf (frame :: taken) = dataOf [frame] ++ dataOf taken :=
                  dataOf_append [frame] taken
                refine ⟨frame :: taken, ?_, ?_, fun hf => h.flagged (hflagged hf), ?_, ?_, h.ended,
                  ?_⟩
                · rw [List.cons_append, ← h.frames]
                · rw [h.read, hread, hsize, Nat.add_assoc]
                · intro buf' hbuf'
                  rw [h.kept buf' hbuf', hbytes, hdata, List.append_assoc]
                · intro buf' hbuf' hne
                  by_cases htaken : dataOf taken = []
                  · have hzero : size taken = 0 := by simp [size, htaken]
                    rw [h.read, hzero]
                    exact hwithin (by simpa [hdata, htaken] using hne)
                  · exact h.within buf' hbuf' htaken
                · intro init last hlast hok
                  rw [hdata, ← hbytes] at hlast
                  rcases List.eq_nil_or_concat (dataOf taken) with htaken | ⟨init', last', htaken⟩
                  · have hinit : init = [] := by
                      rw [htaken, List.append_nil] at hlast
                      cases bytes with
                      | none => simp at hlast
                      | some b => simpa using congrArg List.dropLast hlast.symm
                    rwa [hinit, List.append_nil]
                  · have hinit : init = bytes.toList ++ init' := by
                      rw [htaken, List.concat_eq_append, ← List.append_assoc] at hlast
                      exact (List.append_inj' hlast.symm rfl).1
                    rw [hinit, ← List.append_assoc]
                    exact h.stopped init' last' (by rw [htaken, List.concat_eq_append]) hok

/-! ## One read -/

/-- The bytes an answer carries. -/
def Answer.bytes : Answer → Bytes
  | .data bytes => bytes
  | _ => []

/-- A read that takes the frames `taken`: it gives all their data to Lua, or fails. -/
structure Reads (limit : ℕ) (req : LuaRequest) (taken : List Frame) (answer : Answer)
    (req' : LuaRequest) : Prop where
  frames : req.frames = taken ++ req'.frames
  read : req'.guards.read = req.guards.read + size taken
  flagged : req.guards.Flagged limit → req'.guards.Flagged limit
  cached : req'.cachedBody = req.cachedBody
  data : answer ≠ .failed → answer.bytes = (dataOf taken).flatten
  within : answer ≠ .failed → dataOf taken ≠ [] → req'.guards.read ≤ limit
  done : answer = .done → req'.frames = []

theorem read_reads (limit : ℕ) (req : LuaRequest) :
    ∃ taken, Reads limit req taken (req.read limit).1 (req.read limit).2 := by
  obtain ⟨taken, h⟩ := pull_spec limit (fun buf => !buf.isEmpty) req.frames req.guards []
  refine ⟨taken, ?_⟩
  unfold LuaRequest.read
  generalize pull limit (fun buf => !buf.isEmpty) req.frames req.guards [] = pulled at h
  cases hresult : pulled.result with
  | error e =>
      simp only [hresult]
      exact ⟨h.frames, h.read, h.flagged, rfl, by simp, by simp, by simp⟩
  | ok buf =>
      have hbuf : buf = dataOf taken := by simpa using h.kept buf hresult
      have hwithin := h.within buf hresult
      cases buf with
      | nil =>
          simp only [hresult]
          refine ⟨h.frames, h.read, h.flagged, rfl, ?_, fun _ => hwithin, fun _ => ?_⟩
          · intro _
            rw [← hbuf]
            rfl
          · exact h.ended [] hresult rfl
      | cons bytes more =>
          -- the loop stops at the first frame with data
          have hmore : more = [] := by
            rcases List.eq_nil_or_concat more with hmore | ⟨init, last, hmore⟩
            · exact hmore
            · have := h.stopped (bytes :: init) last (by rw [← hbuf, hmore]; simp)
                (by rw [hresult]; rfl)
              simp at this
          simp only [hresult]
          refine ⟨h.frames, h.read, h.flagged, rfl, ?_, fun _ => hwithin, by simp⟩
          intro _
          rw [← hbuf, hmore]
          simp [Answer.bytes]

theorem clampWant_pos {n limit : ℕ} (hn : 1 ≤ n) : 1 ≤ clampWant (min n (2 ^ 64 - 1)) limit := by
  unfold clampWant
  omega

theorem readSized_reads (limit : ℕ) (req : LuaRequest) {n : ℕ} (hn : 1 ≤ n) :
    ∃ taken, Reads limit req taken (req.readSized limit n).1 (req.readSized limit n).2 := by
  have hwant := @clampWant_pos n limit hn
  unfold LuaRequest.readSized
  generalize clampWant (min n (2 ^ 64 - 1)) limit = want at hwant ⊢
  obtain ⟨taken, h⟩ := pull_spec limit (fun buf => decide (want ≤ buf.flatten.length)) req.frames
    req.guards []
  refine ⟨taken, ?_⟩
  dsimp only
  generalize pull limit (fun buf => decide (want ≤ buf.flatten.length)) req.frames req.guards [] =
    pulled at h
  cases hresult : pulled.result with
  | error e =>
      exact ⟨h.frames, h.read, h.flagged, rfl, by simp, by simp, by simp⟩
  | ok buf =>
      have hbuf : buf = dataOf taken := by simpa using h.kept buf hresult
      have hwithin := h.within buf hresult
      dsimp only
      by_cases hempty : buf.flatten.isEmpty = true
      · rw [if_pos hempty]
        rw [List.isEmpty_iff] at hempty
        refine ⟨h.frames, h.read, h.flagged, rfl, ?_, fun _ => hwithin, fun _ => ?_⟩
        · intro _
          rw [← hbuf, hempty]
          rfl
        · refine h.ended buf hresult ?_
          simp only [hempty, List.length_nil, decide_eq_false_iff_not]
          omega
      · rw [if_neg hempty]
        refine ⟨h.frames, h.read, h.flagged, rfl, ?_, fun _ => hwithin, by simp⟩
        intro _
        rw [← hbuf]
        rfl

/-- A read of the whole body that is not kept yet. -/
theorem wholeBody_reads (limit : ℕ) {req : LuaRequest} (hcached : req.cachedBody = none) :
    ∃ taken, req.frames = taken ++ (req.wholeBody limit).2.frames ∧
      (req.wholeBody limit).2.guards.read = req.guards.read + size taken ∧
      (req.guards.Flagged limit → (req.wholeBody limit).2.guards.Flagged limit) ∧
      (req.wholeBody limit).2.cachedBody = (req.wholeBody limit).1 ∧
      ∀ bytes, (req.wholeBody limit).1 = some bytes →
        bytes = (dataOf taken).flatten ∧ (req.wholeBody limit).2.frames = [] ∧
          (dataOf taken ≠ [] → (req.wholeBody limit).2.guards.read ≤ limit) := by
  obtain ⟨taken, h⟩ := pull_spec limit (fun _ => false) req.frames req.guards []
  refine ⟨taken, ?_⟩
  unfold LuaRequest.wholeBody
  rw [hcached]
  dsimp only
  generalize pull limit (fun _ => false) req.frames req.guards [] = pulled at h
  cases hresult : pulled.result with
  | error e => exact ⟨h.frames, h.read, h.flagged, rfl, by simp⟩
  | ok buf =>
      have hbuf : buf = dataOf taken := by simpa using h.kept buf hresult
      refine ⟨h.frames, h.read, h.flagged, rfl, ?_⟩
      intro bytes hbytes
      cases hbytes
      exact ⟨by rw [hbuf], h.ended buf hresult rfl, h.within buf hresult⟩

/-! ## The invariant of a sequence of reads -/

/-- What holds after some reads. `past` are the frames taken off the body, `given` the frames
given to Lua, and `held` those of a body that is kept and was not given yet. `clean` says that no
read failed, `used` that a read of the whole body succeeded. -/
structure Inv (limit : ℕ) (body : List Frame) (req : LuaRequest) (clean used : Bool)
    (past : List Frame) (given held : List Bytes) : Prop where
  frames : body = past ++ req.frames
  read : req.guards.read = size past
  flagged : req.guards.Flagged limit
  sublist : (given ++ held).Sublist (dataOf past)
  bounded : (given ++ held).flatten.length ≤ limit
  ended : req.cachedBody.isSome = true → req.frames = []
  cached : ∀ bytes, req.cachedBody = some bytes → used = false → bytes = held.flatten
  empty : ∀ bytes, req.cachedBody = some bytes → limit < req.guards.read → bytes = []
  kept : req.cachedBody = none → held = [] ∧ used = false
  clean : clean = true → given = dataOf past ∧ size past ≤ limit ∧ (req.cachedBody.isSome = true →
    used = true)

theorem Inv.new (limit : ℕ) (body : List Frame) :
    Inv limit body (.new body) true false [] [] [] := by
  constructor <;> simp [LuaRequest.new, dataOf, Guards.Flagged]

section

variable {limit : ℕ} {body : List Frame} {req req' : LuaRequest} {clean used : Bool}
  {past taken : List Frame} {given held : List Bytes} {answer : Answer}

/-- A read that gives its data. -/
theorem Inv.keep (h : Inv limit body req clean used past given held)
    (hreads : Reads limit req taken answer req') (hanswer : answer ≠ .failed) :
    Inv limit body req' clean used (past ++ taken) (given ++ dataOf taken) held := by
  have hwithin := hreads.within hanswer
  have hread : req'.guards.read = size (past ++ taken) := by
    rw [hreads.read, h.read, size_append]
  have htaken : req.cachedBody.isSome = true → taken = [] ∧ req'.frames = [] := fun hsome => by
    have := h.ended hsome
    rw [hreads.frames] at this
    exact List.append_eq_nil_iff.mp this
  have hsub : (given ++ dataOf taken ++ held).Sublist (dataOf (past ++ taken)) := by
    cases hc : req.cachedBody with
    | none =>
        have hsub := h.sublist
        rw [(h.kept hc).1, List.append_nil] at hsub ⊢
        rw [dataOf_append]
        exact hsub.append (List.Sublist.refl _)
    | some b =>
        rw [(htaken (by simp [hc])).1]
        simpa [dataOf] using h.sublist
  constructor
  · rw [h.frames, hreads.frames, List.append_assoc]
  · exact hread
  · exact hreads.flagged h.flagged
  · exact hsub
  · by_cases hdata : dataOf taken = []
    · simpa [hdata] using h.bounded
    · refine (length_flatten_le_of_sublist hsub).trans ?_
      have := hwithin hdata
      rwa [hread] at this
  · rw [hreads.cached]
    exact fun hsome => (htaken hsome).2
  · rw [hreads.cached]
    exact h.cached
  · rw [hreads.cached]
    intro bytes hbytes hlimit
    refine h.empty bytes hbytes ?_
    rwa [hreads.read, (htaken (by simp [hbytes])).1, size_nil, Nat.add_zero] at hlimit
  · rw [hreads.cached]
    exact h.kept
  · rw [hreads.cached]
    intro hclean
    obtain ⟨hgiven, hsize, hused⟩ := h.clean hclean
    refine ⟨by rw [hgiven, dataOf_append], ?_, hused⟩
    by_cases hdata : dataOf taken = []
    · have : size taken = 0 := by simp [size, hdata]
      rw [size_append, this]
      omega
    · have := hwithin hdata
      rwa [hread] at this

/-- A read that fails loses its data. -/
theorem Inv.lose (h : Inv limit body req clean used past given held)
    (hframes : req.frames = taken ++ req'.frames)
    (hread : req'.guards.read = req.guards.read + size taken)
    (hflagged : req.guards.Flagged limit → req'.guards.Flagged limit)
    (hcached : req'.cachedBody = req.cachedBody) :
    Inv limit body req' false used (past ++ taken) given held := by
  have htaken : req.cachedBody.isSome = true → taken = [] ∧ req'.frames = [] := fun hsome => by
    have := h.ended hsome
    rw [hframes] at this
    exact List.append_eq_nil_iff.mp this
  constructor
  · rw [h.frames, hframes, List.append_assoc]
  · rw [hread, h.read, size_append]
  · exact hflagged h.flagged
  · rw [dataOf_append]
    exact h.sublist.trans (List.sublist_append_left ..)
  · exact h.bounded
  · rw [hcached]
    exact fun hsome => (htaken hsome).2
  · rw [hcached]
    exact h.cached
  · rw [hcached]
    intro bytes hbytes hlimit
    refine h.empty bytes hbytes ?_
    rwa [hread, (htaken (by simp [hbytes])).1, size_nil, Nat.add_zero] at hlimit
  · rw [hcached]
    exact h.kept
  · simp

/-- The whole body, kept from now on: `given'` and `held'` share out what it holds. -/
theorem Inv.collect (used' : Bool) (given' held' : List Bytes) {bytes : Bytes}
    (h : Inv limit body req clean used past given held)
    (hframes : req.frames = taken ++ req'.frames)
    (hread : req'.guards.read = req.guards.read + size taken)
    (hflagged : req.guards.Flagged limit → req'.guards.Flagged limit)
    (hnone : req.cachedBody = none) (hcached : req'.cachedBody = some bytes)
    (hended : req'.frames = []) (hbytes : bytes = (dataOf taken).flatten)
    (hwithin : dataOf taken ≠ [] → req'.guards.read ≤ limit)
    (hgiven : given' ++ held' = given ++ dataOf taken)
    (hheld : used' = false → held' = dataOf taken) (hfull : used' = true → held' = []) :
    Inv limit body req' (clean && used') used' (past ++ taken) given' held' := by
  have hread' : req'.guards.read = size (past ++ taken) := by rw [hread, h.read, size_append]
  have hsub : (given' ++ held').Sublist (dataOf (past ++ taken)) := by
    have hsub := h.sublist
    rw [(h.kept hnone).1, List.append_nil] at hsub
    rw [hgiven, dataOf_append]
    exact hsub.append (List.Sublist.refl _)
  have hle : dataOf taken = [] ∨ size (past ++ taken) ≤ limit := by
    by_cases hdata : dataOf taken = []
    · exact .inl hdata
    · exact .inr (hread' ▸ hwithin hdata)
  constructor
  · rw [h.frames, hframes, List.append_assoc]
  · exact hread'
  · exact hflagged h.flagged
  · exact hsub
  · rcases hle with hdata | hle
    · have hbounded := h.bounded
      rw [(h.kept hnone).1, List.append_nil] at hbounded
      rwa [hgiven, hdata, List.append_nil]
    · exact (length_flatten_le_of_sublist hsub).trans hle
  · exact fun _ => hended
  · intro b hb hused
    rw [hcached] at hb
    cases hb
    rw [hbytes, hheld hused]
  · intro b hb hlimit
    rw [hcached] at hb
    cases hb
    have hdata : dataOf taken = [] := by
      by_contra hdata
      have := hwithin hdata
      omega
    rw [hbytes, hdata]
    rfl
  · intro hb
    rw [hcached] at hb
    cases hb
  · intro hclean
    obtain ⟨hclean, hused⟩ := Bool.and_eq_true_iff.mp hclean
    obtain ⟨hall, hsize, _⟩ := h.clean hclean
    rw [hfull hused, List.append_nil] at hgiven
    refine ⟨by rw [hgiven, hall, dataOf_append], ?_, fun _ => hused⟩
    rcases hle with hdata | hle
    · have : size taken = 0 := by simp [size, hdata]
      rw [size_append, this]
      omega
    · exact hle

/-- A kept body that is given to Lua. -/
theorem Inv.giveHeld {bytes : Bytes} (h : Inv limit body req clean false past given held)
    (hcached : req.cachedBody = some bytes) :
    Inv limit body req clean true past (given ++ held) [] := by
  have hnot : clean = true → False := fun hclean => by
    have := (h.clean hclean).2.2 (by simp [hcached])
    cases this
  constructor
  · exact h.frames
  · exact h.read
  · exact h.flagged
  · simpa using h.sublist
  · simpa using h.bounded
  · exact h.ended
  · simp
  · exact h.empty
  · simp [hcached]
  · exact fun hclean => (hnot hclean).elim

theorem Inv.fail (h : Inv limit body req clean used past given held) :
    Inv limit body req false used past given held := by
  obtain ⟨h1, h2, h3, h4, h5, h6, h7, h8, h9, _⟩ := h
  exact ⟨h1, h2, h3, h4, h5, h6, h7, h8, h9, by simp⟩

end

/-! ## Sequences of reads -/

def Op.isWhole : Op → Bool
  | .whole _ => true
  | _ => false

/-- A sized read asks for at least one byte. -/
def Op.Sized : Op → Prop
  | .readSized n => 1 ≤ n
  | _ => True

def Answer.isData : Answer → Bool
  | .data _ => true
  | _ => false

section

variable {limit : ℕ} {body : List Frame} {req : LuaRequest} {clean used : Bool}
  {past : List Frame} {given held : List Bytes}

/-- What one read of a sequence does. -/
structure Stepped (limit : ℕ) (body : List Frame) (req : LuaRequest) (clean used : Bool)
    (given : List Bytes) (op : Op) (answer : Answer) (req' : LuaRequest) : Prop where
  inv : ∃ past' given' held', Inv limit body req' (clean && decide (answer ≠ .failed))
    (used || (op.isWhole && answer.isData)) past' given' held' ∧
    given'.flatten = given.flatten ++ answer.bytes
  done : answer = .done → req'.frames = []
  suffix : req'.frames <:+ req.frames
  beyond : limit < req.guards.read → limit < req'.guards.read ∧ answer.bytes = []

theorem stepped_of_reads {op : Op} {taken : List Frame} {answer : Answer} {req' : LuaRequest}
    (h : Inv limit body req clean used past given held) (hop : op.isWhole = false)
    (hreads : Reads limit req taken answer req') :
    Stepped limit body req clean used given op answer req' := by
  have hgrows : req.guards.read ≤ req'.guards.read := by
    rw [hreads.read]
    omega
  by_cases hanswer : answer = .failed
  · subst hanswer
    refine ⟨⟨past ++ taken, given, held, ?_, by simp [Answer.bytes]⟩, by simp,
      ⟨taken, hreads.frames.symm⟩, ?_⟩
    · simpa [hop] using h.lose hreads.frames hreads.read hreads.flagged hreads.cached
    · exact fun hlimit => ⟨by omega, rfl⟩
  · refine ⟨⟨past ++ taken, given ++ dataOf taken, held, ?_, ?_⟩, hreads.done,
      ⟨taken, hreads.frames.symm⟩, ?_⟩
    · simpa [hop, hanswer] using h.keep hreads hanswer
    · rw [List.flatten_append, hreads.data hanswer]
    · intro hlimit
      have hdata : dataOf taken = [] := by
        by_contra hdata
        have := hreads.within hanswer hdata
        omega
      exact ⟨by omega, by rw [hreads.data hanswer, hdata]; rfl⟩

theorem stepped_whole {accepts : Bytes → Bool}
    (h : Inv limit body req clean used past given held)
    (hone : used = true → (req.whole limit accepts).1.isData = false) :
    Stepped limit body req clean used given (.whole accepts) (req.whole limit accepts).1
      (req.whole limit accepts).2 := by
  cases hcached : req.cachedBody with
  | some bytes =>
      have hwhole : req.whole limit accepts =
          (if accepts bytes then .data bytes else .failed, req) := by
        simp [LuaRequest.whole, LuaRequest.wholeBody, hcached]
      rw [hwhole] at hone ⊢
      by_cases haccepts : accepts bytes = true
      · simp only [haccepts, if_true] at hone ⊢
        have hused : used = false := by
          cases used with
          | false => rfl
          | true => exact absurd (hone rfl) (by simp [Answer.isData])
        subst hused
        refine ⟨⟨past, given ++ held, [], ?_, ?_⟩, by simp, List.suffix_rfl, ?_⟩
        · simpa [Op.isWhole, Answer.isData] using h.giveHeld hcached
        · rw [List.flatten_append, ← h.cached bytes hcached rfl]
          rfl
        · exact fun hlimit => ⟨hlimit, h.empty bytes hcached hlimit⟩
      · simp only [haccepts, Bool.false_eq_true, if_false]
        refine ⟨⟨past, given, held, ?_, by simp [Answer.bytes]⟩, by simp, List.suffix_rfl,
          fun hlimit => ⟨hlimit, rfl⟩⟩
        simpa [Op.isWhole, Answer.isData] using h.fail
  | none =>
      obtain ⟨taken, hframes, hread, hflagged, hkept, hbytes⟩ := wholeBody_reads limit hcached
      obtain ⟨hheld, hused⟩ := h.kept hcached
      subst hused
      subst hheld
      unfold LuaRequest.whole
      cases hwhole : req.wholeBody limit with
      | mk result req' =>
          rw [hwhole] at hframes hread hflagged hkept hbytes
          dsimp only at hframes hread hflagged hkept hbytes ⊢
          have hgrows : req.guards.read ≤ req'.guards.read := by
            rw [hread]
            omega
          cases result with
          | none =>
              refine ⟨⟨past ++ taken, given, [], ?_, by simp [Answer.bytes]⟩, by simp,
                ⟨taken, hframes.symm⟩, fun hlimit => ⟨by dsimp only; omega, rfl⟩⟩
              simpa [Op.isWhole, Answer.isData] using
                h.lose hframes hread hflagged (by rw [hkept, hcached])
          | some bytes =>
              obtain ⟨hflat, hended, hwithin⟩ := hbytes bytes rfl
              have hover : limit < req.guards.read → bytes = [] := fun hlimit => by
                have hdata : dataOf taken = [] := by
                  by_contra hdata
                  have := hwithin hdata
                  omega
                rw [hflat, hdata]
                rfl
              dsimp only
              by_cases haccepts : accepts bytes = true
              · simp only [haccepts, if_true]
                refine ⟨⟨past ++ taken, given ++ dataOf taken, [], ?_, ?_⟩, by simp,
                  ⟨taken, hframes.symm⟩, fun hlimit => ⟨by omega, hover hlimit⟩⟩
                · have := h.collect true (given ++ dataOf taken) [] hframes hread hflagged hcached hkept hended hflat hwithin (by simp) (by simp)
                    (by simp)
                  simpa [Op.isWhole, Answer.isData] using this
                · rw [List.flatten_append, ← hflat]
                  rfl
              · simp only [haccepts, Bool.false_eq_true, if_false]
                refine ⟨⟨past ++ taken, given, dataOf taken, ?_, by simp [Answer.bytes]⟩, by simp,
                  ⟨taken, hframes.symm⟩, fun hlimit => ⟨by omega, rfl⟩⟩
                have := h.collect false given (dataOf taken) hframes hread hflagged hcached hkept hended hflat hwithin rfl (by simp) (by simp)
                simpa [Op.isWhole, Answer.isData] using this

theorem stepped {op : Op} (h : Inv limit body req clean used past given held) (hop : op.Sized)
    (hone : used = true → op.isWhole = true → (req.step limit op).1.isData = false) :
    Stepped limit body req clean used given op (req.step limit op).1 (req.step limit op).2 := by
  cases op with
  | read =>
      obtain ⟨taken, hreads⟩ := read_reads limit req
      exact stepped_of_reads h rfl hreads
  | readSized n =>
      obtain ⟨taken, hreads⟩ := readSized_reads limit req hop
      exact stepped_of_reads h rfl hreads
  | whole accepts => exact stepped_whole h fun hused => hone hused rfl

/-- How many reads of the whole body succeeded. -/
def wholeReads : List Op → List Answer → ℕ
  | op :: ops, answer :: answers =>
      (if op.isWhole && answer.isData then 1 else 0) + wholeReads ops answers
  | _, _ => 0

/-- All the data the answers carry. -/
def returned (answers : List Answer) : Bytes := (answers.map Answer.bytes).flatten

/-- What holds after a sequence of reads. -/
structure Ran (limit : ℕ) (body : List Frame) (req : LuaRequest) (clean used : Bool)
    (given : List Bytes) (ops : List Op) (answers : List Answer) (req' : LuaRequest) : Prop where
  inv : ∃ past' given' held',
    Inv limit body req' (clean && decide (.failed ∉ answers))
      (used || decide (1 ≤ wholeReads ops answers)) past' given' held' ∧
    given'.flatten = given.flatten ++ returned answers
  done : .done ∈ answers → req'.frames = []
  suffix : req'.frames <:+ req.frames
  beyond : limit < req.guards.read → returned answers = []

theorem ran {ops : List Op} (h : Inv limit body req clean used past given held)
    (hsized : ∀ op ∈ ops, op.Sized)
    (hone : (if used then 1 else 0) + wholeReads ops (LuaRequest.run limit req ops).1 ≤ 1) :
    Ran limit body req clean used given ops (LuaRequest.run limit req ops).1
      (LuaRequest.run limit req ops).2 := by
  induction ops generalizing req clean used past given held with
  | nil =>
      exact ⟨⟨past, given, held, by simpa [LuaRequest.run, wholeReads] using h, by
        simp [LuaRequest.run, returned]⟩, by simp [LuaRequest.run], List.suffix_rfl, fun _ => rfl⟩
  | cons op ops ih =>
      have hrun : LuaRequest.run limit req (op :: ops) =
          ((req.step limit op).1 :: (LuaRequest.run limit (req.step limit op).2 ops).1,
            (LuaRequest.run limit (req.step limit op).2 ops).2) := rfl
      rw [hrun] at hone ⊢
      dsimp only [wholeReads] at hone ⊢
      have hstep := stepped h (hsized op (List.mem_cons_self ..)) (by
        intro hused hwhole
        by_contra hdata
        rw [Bool.not_eq_false] at hdata
        simp only [hused, hwhole, hdata, Bool.and_self, if_true] at hone
        omega)
      generalize (req.step limit op).1 = answer at hone hstep ⊢
      generalize (req.step limit op).2 = req₁ at hone hstep ⊢
      obtain ⟨past₁, given₁, held₁, hinv, hgiven⟩ := hstep.inv
      have hcount : (if used || (op.isWhole && answer.isData) then 1 else 0) +
          wholeReads ops (LuaRequest.run limit req₁ ops).1 ≤ 1 := by
        generalize wholeReads ops (LuaRequest.run limit req₁ ops).1 = n at hone ⊢
        generalize (op.isWhole && answer.isData) = now at hone ⊢
        cases used <;> cases now <;> simp only [Bool.or_true, Bool.or_false,
          if_true, if_false, Bool.false_eq_true] at hone ⊢ <;> omega
      have hrest := ih hinv (fun op' hop' => hsized op' (List.mem_cons_of_mem _ hop')) hcount
      obtain ⟨past', given', held', hinv', hgiven'⟩ := hrest.inv
      refine ⟨⟨past', given', held', ?_, ?_⟩, ?_, hrest.suffix.trans hstep.suffix, ?_⟩
      · have hclean : (clean && decide (answer ≠ .failed) &&
            decide (.failed ∉ (LuaRequest.run limit req₁ ops).1)) =
            (clean && decide (.failed ∉ answer :: (LuaRequest.run limit req₁ ops).1)) := by
          rw [Bool.and_assoc, ← Bool.decide_and]
          congr 2
          simp [eq_comm]
        have hused : (used || (op.isWhole && answer.isData) ||
            decide (1 ≤ wholeReads ops (LuaRequest.run limit req₁ ops).1)) =
            (used || decide (1 ≤ wholeReads (op :: ops)
              (answer :: (LuaRequest.run limit req₁ ops).1))) := by
          rw [Bool.or_assoc]
          congr 1
          simp only [wholeReads]
          by_cases hnow : (op.isWhole && answer.isData) = true
          · simp [hnow]
          · simp [hnow]
        rwa [hclean, hused] at hinv'
      · rw [hgiven', hgiven, List.append_assoc]
        rfl
      · intro hdone
        rcases List.mem_cons.mp hdone with hnow | hlater
        · have hnil := hstep.done hnow.symm
          have := hrest.suffix
          rw [hnil] at this
          exact List.suffix_nil.mp this
        · exact hrest.done hlater
      · intro hlimit
        obtain ⟨hlimit', hbytes⟩ := hstep.beyond hlimit
        have := hrest.beyond hlimit'
        simp only [returned, List.map_cons, List.flatten_cons] at this ⊢
        rw [hbytes, this]
        rfl

/-- The answers to a sequence of reads are those to its start and those to its rest. -/
theorem run_append (limit : ℕ) (req : LuaRequest) (ops₁ ops₂ : List Op) :
    LuaRequest.run limit req (ops₁ ++ ops₂) =
      ((LuaRequest.run limit req ops₁).1 ++
          (LuaRequest.run limit (LuaRequest.run limit req ops₁).2 ops₂).1,
        (LuaRequest.run limit (LuaRequest.run limit req ops₁).2 ops₂).2) := by
  induction ops₁ generalizing req with
  | nil => rfl
  | cons op ops₁ ih => simp [LuaRequest.run, ih]

theorem length_run (limit : ℕ) (req : LuaRequest) (ops : List Op) :
    (LuaRequest.run limit req ops).1.length = ops.length := by
  induction ops generalizing req with
  | nil => rfl
  | cons op ops ih => simp [LuaRequest.run, ih]

theorem wholeReads_append {ops₁ ops₂ : List Op} {answers₁ answers₂ : List Answer}
    (h : answers₁.length = ops₁.length) :
    wholeReads (ops₁ ++ ops₂) (answers₁ ++ answers₂) =
      wholeReads ops₁ answers₁ + wholeReads ops₂ answers₂ := by
  induction ops₁ generalizing answers₁ with
  | nil =>
      cases answers₁ with
      | nil => simp [wholeReads]
      | cons answer answers₁ => cases h
  | cons op ops₁ ih =>
      cases answers₁ with
      | nil => cases h
      | cons answer answers₁ =>
          simp only [List.cons_append, wholeReads]
          rw [ih (by simpa using h), Nat.add_assoc]

end

/-- What the reads of a handler give, for a body and a limit. `pulled` bytes are those taken off
the socket. -/
structure BodyKept (limit : ℕ) (body : List Frame) (ops : List Op) : Prop where
  whole_frames : ∃ given : List Bytes, given.Sublist (dataOf body) ∧
    returned (LuaRequest.run limit (.new body) ops).1 = given.flatten
  start_of_body : .failed ∉ (LuaRequest.run limit (.new body) ops).1 →
    returned (LuaRequest.run limit (.new body) ops).1 <+: (dataOf body).flatten
  bounded : (returned (LuaRequest.run limit (.new body) ops).1).length ≤ limit
  complete : .done ∈ (LuaRequest.run limit (.new body) ops).1 →
    .failed ∉ (LuaRequest.run limit (.new body) ops).1 →
    returned (LuaRequest.run limit (.new body) ops).1 = (dataOf body).flatten ∧
      (dataOf body).flatten.length ≤ limit
  oversized : ∀ ops₁ ops₂, ops = ops₁ ++ ops₂ →
    limit < size body - size (LuaRequest.run limit (.new body) ops₁).2.frames →
    (LuaRequest.run limit (.new body) ops₁).2.guards.oversized = true ∧
      returned (LuaRequest.run limit (LuaRequest.run limit (.new body) ops₁).2 ops₂).1 = []

/-- Every sequence of reads gives whole frames in order and at most the limit, and all of the
body when it reaches its end without a failure. -/
theorem run_bodyKept (limit : ℕ) (body : List Frame) (ops : List Op)
    (hsized : ∀ op ∈ ops, op.Sized)
    (hone : wholeReads ops (LuaRequest.run limit (.new body) ops).1 ≤ 1) :
    BodyKept limit body ops := by
  have hran := ran (Inv.new limit body) hsized (by simpa using hone)
  obtain ⟨past, given, held, hinv, hgiven⟩ := hran.inv
  rw [List.flatten_nil, List.nil_append] at hgiven
  have hsub : given.Sublist (dataOf past) := (List.sublist_append_left ..).trans hinv.sublist
  have hclean : .failed ∉ (LuaRequest.run limit (.new body) ops).1 →
      given = dataOf past ∧ size past ≤ limit := by
    intro hfailed
    obtain ⟨hall, hsize, _⟩ := hinv.clean (by simp [hfailed])
    exact ⟨hall, hsize⟩
  constructor
  · refine ⟨given, hsub.trans ?_, hgiven.symm⟩
    rw [hinv.frames, dataOf_append]
    exact List.sublist_append_left ..
  · intro hfailed
    rw [← hgiven, (hclean hfailed).1, hinv.frames, dataOf_append, List.flatten_append]
    exact List.prefix_append ..
  · rw [← hgiven]
    exact (length_flatten_le_of_sublist (List.sublist_append_left ..)).trans hinv.bounded
  · intro hdone hfailed
    have hpast : body = past := by simpa [hran.done hdone] using hinv.frames
    obtain ⟨hall, hsize⟩ := hclean hfailed
    rw [← hgiven, hall, hpast]
    exact ⟨rfl, hsize⟩
  · rintro ops₁ ops₂ rfl hlimit
    rw [run_append, wholeReads_append (length_run ..)] at hone
    have hran₁ := ran (Inv.new limit body)
      (fun op hop => hsized op (List.mem_append_left _ hop)) (by simp; omega)
    obtain ⟨past₁, given₁, held₁, hinv₁, _⟩ := hran₁.inv
    have hread : limit < (LuaRequest.run limit (.new body) ops₁).2.guards.read := by
      have hsize : size body = size past₁ + size (LuaRequest.run limit (.new body) ops₁).2.frames := by
        rw [← size_append, ← hinv₁.frames]
      rw [hinv₁.read]
      omega
    have hover : (LuaRequest.run limit (.new body) ops₁).2.guards.oversized = true := by
      rw [hinv₁.flagged]
      exact decide_eq_true hread
    refine ⟨hover, ?_⟩
    have hone₂ : (if (false || decide (1 ≤ wholeReads ops₁
        (LuaRequest.run limit (.new body) ops₁).1)) then 1 else 0) + wholeReads ops₂
        (LuaRequest.run limit (LuaRequest.run limit (.new body) ops₁).2 ops₂).1 ≤ 1 := by
      rw [Bool.false_or]
      by_cases hused : 1 ≤ wholeReads ops₁ (LuaRequest.run limit (.new body) ops₁).1
      · simp only [hused, decide_true, if_true]
        omega
      · simp only [hused, decide_false, Bool.false_eq_true, if_false]
        omega
    exact (ran hinv₁ (fun op hop => hsized op (List.mem_append_right _ hop)) hone₂).beyond hread

/-- A body of one byte more than the limit, read whole after its first frame: the second read
fails, and the flag is set. -/
theorem run_bodyKept_oversized :
    BodyKept 3 [.data [1, 2], .trailers, .data [3, 4]] [.read, .whole fun _ => true] ∧
      (LuaRequest.run 3 (.new [.data [1, 2], .trailers, .data [3, 4]])
        [.read, .whole fun _ => true]).1 = [.data [1, 2], .failed] :=
  ⟨run_bodyKept 3 _ _ (by simp [Op.Sized]) (by decide), by decide⟩

end Nitr.Reading
