import SmartRoutine.Handlers

/-!
# The incremental delimiter search

`smart_read_until_impl` remembers in `last_search_end_` how far it has searched and starts the next
search there.

* `Searched` — everything before `last_search_end_` is ruled out for good.
* `receive_searched` — one chunk keeps this, and the search answers for the whole readable section.
* `smartReadUntilImpl_cases` — what one dispatch can do, errors and end of file included.
* `deliver_resume_iff` — for every way of cutting the stream, the handler asks to resume the
  coroutine exactly when the readable section contains the delimiter.
-/

set_option autoImplicit false

namespace SmartRoutine

open Pattern

/-- Bytes a call adds to the buffer if it succeeds. -/
def BufferOp.added : BufferOp → Nat
  | .append data => data.length
  | .consume _ => 0

namespace DynamicBuffer

section

variable {env : BufferEnv} {b b' : DynamicBuffer} {i a : Nat}

theorem InRange.mono (h : InRange b i a) {a' : Nat} (ha : a ≤ a') : InRange b i a' :=
  ⟨h.read_le, Nat.le_trans h.write_le ha, Nat.le_trans h.capacity_le (by omega), h.max_lt⟩

theorem step_inRange (h : InRange b i a) (hi : i < 2 ^ 63) {op : BufferOp} (ha : a + op.added < 2 ^ 63)
    (hstep : b.step env op = some b') : InRange b' i (a + op.added) := by
  cases op with
  | append data =>
    cases hstep
    rcases append_contents env .success h hi ha with hrefused | ⟨h', _⟩
    · rw [hrefused]; exact h.mono (Nat.le_add_right _ _)
    · exact h'
  | consume n =>
    cases hstep
    rcases consume_contents .success h ha n with ⟨hrefused, _⟩ | ⟨h', _⟩
    · rw [hrefused]; exact h
    · exact h'

/-- Every buffer a program can have is in range. -/
theorem run_inRange (hi : i < 2 ^ 63) : ∀ (ops : List BufferOp) (b b' : DynamicBuffer) (a : Nat),
    InRange b i a → a + (ops.map BufferOp.added).sum < 2 ^ 63 →
    Transition.exec (step env) b ops = some b' → InRange b' i (a + (ops.map BufferOp.added).sum)
  | [], b, b', a, h, _, hrun => by
    simp only [Transition.exec_nil, Option.some.injEq] at hrun
    exact hrun ▸ h
  | op :: ops, b, b', a, h, ha, hrun => by
    simp only [List.map_cons, List.sum_cons] at ha ⊢
    cases hs : b.step env op with
    | none => simp [Transition.exec, hs] at hrun
    | some b₁ =>
      rw [Transition.exec_cons hs] at hrun
      rw [← Nat.add_assoc]
      exact run_inRange hi ops b₁ b' _ (step_inRange h hi (by omega) hs) (by omega) hrun

end

end DynamicBuffer

/-! ## One chunk -/

/-- The buffer holds `text`, and no occurrence of the delimiter starts before
`last_search_end_`, now or later. -/
structure Searched (ctx : ReadUntilContext) (i a : Nat) (text : List UInt8) : Prop where
  range : ctx.buffer.InRange i a
  contents : ctx.buffer.contents = text
  skipped : Skipped ctx.delim text ctx.lastSearchEnd

section

variable {ctx : ReadUntilContext} {i a : Nat} {text : List UInt8}

/-- **The search from `last_search_end_` on returns and classifies what it has not ruled out.** -/
theorem Searched.search (h : Searched ctx i a text) (hlen : text.length < 2 ^ 32)
    (hdelim : ctx.delim ≠ []) :
    ∃ r, ctx.search = some r ∧ Classifies ctx.delim (text.drop ctx.lastSearchEnd) r := by
  have hle := h.skipped.le_length
  have hsize : ctx.buffer.readBuffer.size = text.length := by
    rw [← h.contents, DynamicBuffer.contents, Memory.length_slice]
  have hsub : sub64 text.length ctx.lastSearchEnd = text.length - ctx.lastSearchEnd :=
    sub64_of_le (by omega) hle
  unfold ReadUntilContext.search
  dsimp only
  rw [hsize, hsub]
  obtain ⟨r, hr, hc⟩ := partialSearch_classifies
    (fun k => ctx.buffer.mem (ctx.buffer.readBuffer.data + ctx.lastSearchEnd + k))
    (show text.length - ctx.lastSearchEnd < 2 ^ 32 by omega) hdelim
  refine ⟨r, hr, ?_⟩
  have htext : text.drop ctx.lastSearchEnd = Memory.slice
      (fun k => ctx.buffer.mem (ctx.buffer.readBuffer.data + ctx.lastSearchEnd + k)) 0
        (text.length - ctx.lastSearchEnd) := by
    conv_lhs => rw [← h.contents, DynamicBuffer.contents, Memory.drop_slice _ _ _ (by omega), hsize]
    exact Memory.slice_congr fun k _ => by simp only [Nat.zero_add]
  rw [htext]
  exact hc

/-- What the answer of a search from `e` on means for the whole text. -/
def Answers (p text : List UInt8) (e : Nat) : PartialSearchResult × Nat → Prop
  | (.Match, _) => p <:+: text
  | (.PartialMatch, k) => ¬ p <:+: text ∧ Skipped p text (e + k)
  | (.NotMatch, _) => ¬ p <:+: text ∧ Skipped p text text.length

/-- **With everything before `e` ruled out, a search of the rest answers for the whole text.** -/
theorem Classifies.answers {p : List UInt8} {e : Nat} (hp : p ≠ []) (h : Skipped p text e)
    {r : PartialSearchResult × Nat} (hc : Classifies p (text.drop e) r) : Answers p text e r := by
  have hle := h.le_length
  have hpos := List.length_pos_iff.2 hp
  have hlen : (text.drop e).length = text.length - e := List.length_drop
  match r with
  | (.Match, k) =>
    obtain ⟨_, ho⟩ := hc
    exact infix_iff_occursAt.2 ⟨_, (occursAt_drop p hle k).1 ho⟩
  | (.PartialMatch, k) =>
    obtain ⟨hk, hskip, halive, hno⟩ := hc
    refine ⟨(h.drop hskip).not_occurs ?_, h.drop hskip⟩
    -- the pattern is alive at `k` but does not fit there, so it fits nowhere after
    by_contra hfit
    exact hno ⟨by omega, halive⟩
  | (.NotMatch, k) =>
    obtain ⟨_, hskip⟩ := hc
    have hall := h.drop hskip
    rw [hlen, Nat.add_sub_cancel' hle] at hall
    exact ⟨hall.not_occurs (by omega), hall⟩

section

variable (ctx : ReadUntilContext) (r : DynamicBuffer × CodeVal) (n : Nat)

theorem appended_buffer : (ctx.appended r n).buffer = r.1 := rfl

theorem appended_ec : (ctx.appended r n).ec = r.2 := rfl

theorem appended_ret : (ctx.appended r n).ret = if r.2.fail then -1 else toInt (ctx.ret + n) := rfl

theorem appended_delim : (ctx.appended r n).delim = ctx.delim := rfl

theorem appended_lastSearchEnd : (ctx.appended r n).lastSearchEnd = ctx.lastSearchEnd := rfl

theorem searched_appended (hrange : r.1.InRange i a) (hcont : r.1.contents = text)
    (hskip : Skipped ctx.delim text ctx.lastSearchEnd) : Searched (ctx.appended r n) i a text where
  range := by rw [appended_buffer]; exact hrange
  contents := by rw [appended_buffer, hcont]
  skipped := by rw [appended_delim, appended_lastSearchEnd]; exact hskip

theorem setSearchEnd_ec (e : Nat) : (ctx.setSearchEnd e).ec = ctx.ec := rfl

theorem setSearchEnd_buffer (e : Nat) : (ctx.setSearchEnd e).buffer = ctx.buffer := rfl

theorem setSearchEnd_ret (e : Nat) : (ctx.setSearchEnd e).ret = ctx.ret := rfl

theorem setSearchEnd_delim (e : Nat) : (ctx.setSearchEnd e).delim = ctx.delim := rfl

variable {ctx}

theorem Searched.setSearchEnd (h : Searched ctx i a text) {e : Nat} (hskip : Skipped ctx.delim text e) :
    Searched (ctx.setSearchEnd e) i a text :=
  ⟨h.range, h.contents, hskip⟩

end

theorem receive_delim (env : BufferEnv) (ctx : ReadUntilContext) (bytes : List UInt8) :
    (ctx.receive env bytes).delim = ctx.delim := appended_delim ctx _ _

/-- `append` inside the handler: the new bytes are there, or the error code says why not. -/
theorem receive_searched (env : BufferEnv) (h : Searched ctx i a text) (hi : i < 2 ^ 63) {bytes : List UInt8}
    (ha : a + bytes.length < 2 ^ 63) :
    ∃ added, Searched (ctx.receive env bytes) i (a + bytes.length) (text ++ added) ∧
      added.length ≤ bytes.length ∧
      ((ctx.receive env bytes).ec = .success → ctx.ec = .success ∧ added = bytes) := by
  have hrange := h.range
  rcases DynamicBuffer.append_contents env ctx.ec hrange hi ha with hrefused | ⟨hrange', hec, hcont⟩
  · refine ⟨[], ?_, Nat.zero_le _, ?_⟩
    · rw [ReadUntilContext.receive, hrefused, List.append_nil]
      exact searched_appended _ _ _ (hrange.mono (Nat.le_add_right _ _)) h.contents h.skipped
    · rw [ReadUntilContext.receive, hrefused, appended_ec]
      intro hs
      cases hs
  · refine ⟨bytes, ?_, Nat.le_refl _, ?_⟩
    · exact searched_appended _ _ _ hrange' (by rw [hcont, h.contents]) (h.skipped.append bytes)
    · rw [ReadUntilContext.receive, appended_ec, hec]
      exact fun hs => ⟨hs, rfl⟩

/-- A chunk leads to the search. -/
theorem smartReadUntilImpl_of_pos (env : BufferEnv) (ctx : ReadUntilContext) {bytes : List UInt8}
    (errno : Int) (hpos : 0 < bytes.length)
    (hmax : bytes.length ≤ 64) :
    smartReadUntilImpl env ctx ⟨some bytes, errno⟩ =
      (ctx.receive env bytes).afterSearch (ctx.receive env bytes).search := by
  have hret : toInt bytes.length > 0 := by
    unfold toInt
    rw [Int.bmod_eq_of_le (by omega) (by omega)]
    omega
  unfold smartReadUntilImpl
  rw [show (⟨some bytes, errno⟩ : ReadResult).value = bytes.length from rfl]
  dsimp only
  rw [if_pos hret, Option.getD_some]

/-- The search changes only where the next one starts; an append error resumes the coroutine
whatever it finds. -/
theorem afterSearch_keeps {ctx ctx' : ReadUntilContext} {r : Option (PartialSearchResult × Nat)}
    {resume : Bool} (h : ctx.afterSearch r = some (ctx', resume)) :
    ctx'.buffer = ctx.buffer ∧ ctx'.ec = ctx.ec ∧ ctx'.ret = ctx.ret ∧
      (ctx.ec.fail = true → resume = true) := by
  match r with
  | none => cases h
  | some (.Match, _) =>
    obtain ⟨hctx, hresume⟩ := Prod.mk.inj (Option.some.inj h)
    rw [← hctx, ← hresume]
    exact ⟨rfl, rfl, rfl, fun _ => rfl⟩
  | some (.PartialMatch, _) =>
    obtain ⟨hctx, hresume⟩ := Prod.mk.inj (Option.some.inj h)
    rw [← hctx, ← hresume]
    exact ⟨setSearchEnd_buffer _ _, setSearchEnd_ec _ _, setSearchEnd_ret _ _, id⟩
  | some (.NotMatch, _) =>
    obtain ⟨hctx, hresume⟩ := Prod.mk.inj (Option.some.inj h)
    rw [← hctx, ← hresume]
    exact ⟨setSearchEnd_buffer _ _, setSearchEnd_ec _ _, setSearchEnd_ret _ _, id⟩

/-- A chunk leaves what `append` does, and an append error resumes the coroutine. -/
theorem smartReadUntilImpl_append {env : BufferEnv} {ctx ctx' : ReadUntilContext} {bytes : List UInt8}
    {errno : Int} {resume : Bool} (hpos : 0 < bytes.length) (hmax : bytes.length ≤ 64)
    (h : smartReadUntilImpl env ctx ⟨some bytes, errno⟩ = some (ctx', resume)) :
    ctx'.buffer = (ctx.buffer.append env bytes ctx.ec).1 ∧
      ctx'.ec = (ctx.buffer.append env bytes ctx.ec).2 ∧
      ctx'.ret = (if ctx'.ec.fail then -1 else toInt (ctx.ret + bytes.length)) ∧
      (ctx'.ec.fail = true → resume = true) := by
  rw [smartReadUntilImpl_of_pos env ctx errno hpos hmax] at h
  obtain ⟨hbuffer, hec, hret, hresume⟩ := afterSearch_keeps h
  rw [ReadUntilContext.receive, appended_buffer] at hbuffer
  rw [ReadUntilContext.receive, appended_ec] at hec
  rw [ReadUntilContext.receive, appended_ret, ← hec] at hret
  rw [ReadUntilContext.receive, appended_ec, ← hec] at hresume
  exact ⟨hbuffer, hec, hret, hresume⟩

/-- Without a chunk only `ret_` changes, and the coroutine is resumed unless it has to wait. -/
theorem smartReadUntilImpl_of_nonpos (env : BufferEnv) (ctx : ReadUntilContext) {r : ReadResult}
    (h : r.value ≤ 0) :
    smartReadUntilImpl env ctx r =
      if r.value < 0 ∧ r.errno ≠ EWOULDBLOCK then some ({ ctx with ret := -1 }, true)
      else some (ctx, decide (r.value = 0)) := by
  have hvalue : toInt r.value = r.value := by
    have hle := r.neg_one_le
    unfold toInt
    apply Int.bmod_eq_of_le <;> omega
  unfold smartReadUntilImpl
  simp only [hvalue]
  rw [if_neg (by omega)]

/-- **What one dispatch of `smart_read_until_impl` can do.** -/
theorem smartReadUntilImpl_cases {env : BufferEnv} {ctx ctx' : ReadUntilContext} {r : ReadResult}
    {resume : Bool} (hallows : r.value ≤ 64)
    (h : smartReadUntilImpl env ctx r = some (ctx', resume)) :
    (∃ bytes : List UInt8, r.bytes = some bytes ∧ 0 < bytes.length ∧
        ctx'.buffer = (ctx.buffer.append env bytes ctx.ec).1 ∧
        ctx'.ec = (ctx.buffer.append env bytes ctx.ec).2 ∧
        ctx'.ret = (if ctx'.ec.fail then -1 else toInt (ctx.ret + bytes.length)) ∧
        (ctx'.ec.fail = true → resume = true)) ∨
      (r.value < 0 ∧ resume = true ∧ ctx' = { ctx with ret := -1 }) ∨
      (r.value < 0 ∧ resume = false ∧ ctx' = ctx) ∨
      (r.value = 0 ∧ resume = true ∧ ctx' = ctx) := by
  by_cases hpos : 0 < r.value
  · obtain ⟨bytes, hbytes⟩ : ∃ bytes, r = ⟨some bytes, r.errno⟩ := by
      obtain ⟨_ | bytes, errno⟩ := r
      · cases hpos
      · exact ⟨bytes, rfl⟩
    rw [hbytes] at hpos hallows h
    change 0 < (bytes.length : Int) at hpos
    change (bytes.length : Int) ≤ 64 at hallows
    exact Or.inl ⟨bytes, by rw [hbytes], by omega,
      smartReadUntilImpl_append (by omega) (by omega) h⟩
  · rw [smartReadUntilImpl_of_nonpos env ctx (by omega)] at h
    split at h
    · rename_i hfails
      cases h
      exact Or.inr (Or.inl ⟨hfails.1, rfl, rfl⟩)
    · cases h
      by_cases hzero : r.value = 0
      · exact Or.inr (Or.inr (Or.inr ⟨hzero, decide_eq_true hzero, rfl⟩))
      · exact Or.inr (Or.inr (Or.inl ⟨by omega, decide_eq_false hzero, rfl⟩))

/-- **One chunk**: the handler returns, keeps what it knows, and without an append error asks to
resume exactly when the readable section contains the delimiter. -/
theorem smartReadUntilImpl_chunk (env : BufferEnv) (errno : Int) (h : Searched ctx i a text)
    (hi : i < 2 ^ 63) (hdelim : ctx.delim ≠ []) {bytes : List UInt8} (hpos : 0 < bytes.length) (hmax : bytes.length ≤ 64)
    (ha : a + bytes.length < 2 ^ 63) (hlen : text.length + bytes.length < 2 ^ 32) :
    ∃ ctx' resume added, smartReadUntilImpl env ctx ⟨some bytes, errno⟩ = some (ctx', resume) ∧
      Searched ctx' i (a + bytes.length) (text ++ added) ∧ added.length ≤ bytes.length ∧
      ctx'.delim = ctx.delim ∧ (ctx'.ec = .success → ctx.ec = .success ∧ added = bytes ∧
        (resume = true ↔ ctx.delim <:+: text ++ added)) := by
  obtain ⟨added, hs, hadd, hec⟩ := receive_searched env h hi ha
  have hdelim' := receive_delim env ctx bytes
  rw [smartReadUntilImpl_of_pos env ctx errno hpos hmax]
  generalize ctx.receive env bytes = next at hs hec hdelim' ⊢
  have hlen' : (text ++ added).length < 2 ^ 32 := by rw [List.length_append]; omega
  obtain ⟨r, hr, hc⟩ := hs.search hlen' (by rw [hdelim']; exact hdelim)
  have hans := Classifies.answers (by rw [hdelim']; exact hdelim) hs.skipped hc
  rw [hdelim'] at hans
  have hfail : next.ec = .success → next.ec.fail = false := by
    intro e
    rw [e]
    rfl
  rw [hr]
  match r with
  | (.Match, k) =>
    refine ⟨next, true, added, rfl, hs, hadd, hdelim', fun e => ?_⟩
    exact ⟨(hec e).1, (hec e).2, fun _ => hans, fun _ => rfl⟩
  | (.PartialMatch, k) =>
    obtain ⟨hno, hskip⟩ := hans
    have hsum : add64 next.lastSearchEnd k = next.lastSearchEnd + k :=
      add64_of_lt (by have := hskip.le_length; omega)
    refine ⟨next.setSearchEnd (add64 next.lastSearchEnd k), next.ec.fail, added, rfl, ?_, hadd, ?_, ?_⟩
    · rw [hsum]
      exact hs.setSearchEnd (by rw [hdelim']; exact hskip)
    · rw [setSearchEnd_delim, hdelim']
    · rw [setSearchEnd_ec]
      intro e
      rw [hfail e]
      exact ⟨(hec e).1, (hec e).2, by simp [hno]⟩
  | (.NotMatch, k) =>
    obtain ⟨hno, hskip⟩ := hans
    have hsize : next.buffer.readBuffer.size = (text ++ added).length := by
      rw [← hs.contents, DynamicBuffer.contents, Memory.length_slice]
    refine ⟨next.setSearchEnd next.buffer.readBuffer.size, next.ec.fail, added, rfl, ?_, hadd, ?_, ?_⟩
    · rw [hsize]
      exact hs.setSearchEnd (by rw [hdelim']; exact hskip)
    · rw [setSearchEnd_delim, hdelim']
    · rw [setSearchEnd_ec]
      intro e
      rw [hfail e]
      exact ⟨(hec e).1, (hec e).2, by simp [hno]⟩

end

/-! ## Any number of chunks -/

/-- Deliver one chunk; the flag says whether the handler asked to resume. -/
def deliver (env : BufferEnv) (s : ReadUntilContext × Bool) (bytes : List UInt8) :
    Option (ReadUntilContext × Bool) :=
  smartReadUntilImpl env s.1 ⟨some bytes, 0⟩

/-- Any number of chunks keeps what is known, and without an append error all of them are in the
buffer. -/
theorem deliver_run (env : BufferEnv) {i : Nat} (hi : i < 2 ^ 63) {delim : List UInt8} (hdelim : delim ≠ []) :
    ∀ (chunks : List (List UInt8)) (s : ReadUntilContext × Bool) (a : Nat) (text : List UInt8),
    Searched s.1 i a text → s.1.delim = delim → (∀ c ∈ chunks, 0 < c.length ∧ c.length ≤ 64) →
    a + chunks.flatten.length < 2 ^ 63 → text.length + chunks.flatten.length < 2 ^ 32 →
    ∃ s' added, Transition.exec (deliver env) s chunks = some s' ∧
      Searched s'.1 i (a + chunks.flatten.length) (text ++ added) ∧
      added.length ≤ chunks.flatten.length ∧ s'.1.delim = delim ∧
      (s'.1.ec = .success → s.1.ec = .success ∧ added = chunks.flatten)
  | [], s, a, text, hs, hd, _, _, _ =>
    ⟨s, [], rfl, by simpa using hs, Nat.le_refl _, hd, fun he => ⟨he, rfl⟩⟩
  | c :: chunks, s, a, text, hs, hd, hc, ha, hlen => by
    rw [List.flatten_cons, List.length_append] at ha hlen
    obtain ⟨hpos, hmax⟩ := hc c (by simp)
    obtain ⟨ctx₁, resume, added₁, hstep, hs₁, hadd₁, hd₁, hec₁⟩ :=
      smartReadUntilImpl_chunk env 0 hs hi (by rw [hd]; exact hdelim) hpos hmax
        (by omega) (by omega)
    obtain ⟨s₂, added₂, hrun, hs₂, hadd₂, hd₂, hec₂⟩ := deliver_run env hi hdelim chunks (ctx₁, resume)
      (a + c.length) (text ++ added₁) hs₁ (hd₁.trans hd) (fun c' hc' => hc c' (List.mem_cons_of_mem _ hc'))
      (by omega) (by rw [List.length_append]; omega)
    refine ⟨s₂, added₁ ++ added₂, ?_, ?_, ?_, hd₂, fun he => ?_⟩
    · rw [Transition.exec_cons hstep]
      exact hrun
    · rw [List.flatten_cons, List.length_append, ← Nat.add_assoc, ← List.append_assoc]
      exact hs₂
    · rw [List.flatten_cons, List.length_append, List.length_append]
      omega
    · obtain ⟨he₁, hadded₂⟩ := hec₂ he
      obtain ⟨he₀, hadded₁, _⟩ := hec₁ he₁
      exact ⟨he₀, by rw [List.flatten_cons, hadded₁, hadded₂]⟩

/-- **The incremental search agrees with a full search**: after any sequence of chunks of 1 to 64
bytes, appended without error to a buffer with any history, the handler has returned and the last
call has asked to resume iff the readable section contains the delimiter. -/
theorem deliver_resume_iff (env : BufferEnv) (maxCapacity initCapacity : Nat) (ops : List BufferOp)
    (b : DynamicBuffer) (fd : Int) (delim : List UInt8) (chunks : List (List UInt8)) (last : List UInt8)
    (hmax : maxCapacity < 2 ^ 64) (hinit : initCapacity < 2 ^ 63)
    (hbuffer : Transition.exec (DynamicBuffer.step env) (.new env maxCapacity initCapacity) ops = some b)
    (hdelim : delim ≠ []) (hchunks : ∀ c ∈ chunks ++ [last], 0 < c.length ∧ c.length ≤ 64)
    (htotal : (b.contents ++ (chunks ++ [last]).flatten).length < 2 ^ 32)
    (hsize : (ops.map BufferOp.added).sum + (chunks ++ [last]).flatten.length < 2 ^ 63) :
    ∃ ctx resume,
      Transition.exec (deliver env) (.new fd b delim, false) (chunks ++ [last]) = some (ctx, resume) ∧
      (ctx.ec = .success → ctx.buffer.contents = b.contents ++ (chunks ++ [last]).flatten ∧
        (resume = true ↔ delim <:+: ctx.buffer.contents)) := by
  have hrange : b.InRange initCapacity (ops.map BufferOp.added).sum := by
    have hreached := DynamicBuffer.run_inRange hinit ops _ b 0
      (DynamicBuffer.new_inRange env hmax initCapacity) (by omega) hbuffer
    rwa [Nat.zero_add] at hreached
  have hs : Searched (.new fd b delim) initCapacity (ops.map BufferOp.added).sum b.contents :=
    ⟨hrange, rfl, skipped_zero _ _⟩
  rw [List.flatten_append, List.length_append, List.length_append, List.flatten_singleton] at htotal
  rw [List.flatten_append, List.length_append, List.flatten_singleton] at hsize
  obtain ⟨⟨ctx₁, resume₁⟩, added₁, hrun, hs₁, hadd₁, hd₁, hec₁⟩ := deliver_run env hinit hdelim
    chunks (.new fd b delim, false) _ _ hs rfl (fun c hc => hchunks c (by simp [hc])) (by omega) (by omega)
  obtain ⟨hpos, hmax'⟩ := hchunks last (by simp)
  obtain ⟨ctx, resume, added, hstep, hs₂, _, _, hec⟩ :=
    smartReadUntilImpl_chunk env 0 hs₁ hinit (by rw [hd₁]; exact hdelim) hpos hmax'
      (by omega) (by rw [List.length_append]; omega)
  refine ⟨ctx, resume, ?_, fun he => ?_⟩
  · rw [Transition.exec_concat hrun]
    exact hstep
  · obtain ⟨he₁, hadded, hiff⟩ := hec he
    obtain ⟨_, hadded₁⟩ := hec₁ he₁
    have hcont : ctx.buffer.contents = b.contents ++ (chunks ++ [last]).flatten := by
      rw [hs₂.contents, hadded, hadded₁, List.flatten_append, List.flatten_singleton, List.append_assoc]
    refine ⟨hcont, ?_⟩
    rw [hs₂.contents, ← hd₁]
    exact hiff

/-- A buffer in which the delimiter has begun. -/
def halfDelimiter : DynamicBuffer :=
  ((DynamicBuffer.new DynamicBuffer.defaultEnv 64 64).append DynamicBuffer.defaultEnv [1, 13] .success).1

/-- The rest of the delimiter arrives in two pieces, and overlaps a failed partial match. -/
theorem deliver_resume_iff_straddling : ∃ ctx resume,
    Transition.exec (deliver DynamicBuffer.defaultEnv) (.new 5 halfDelimiter [13, 13, 10], false)
      ([[13, 13]] ++ [[10]]) = some (ctx, resume) ∧
      ctx.ec = .success ∧ ctx.buffer.contents = halfDelimiter.contents ++
        ([[13, 13]] ++ [[10]] : List (List UInt8)).flatten ∧
      (resume = true ↔ [13, 13, 10] <:+: ctx.buffer.contents) := by
  obtain ⟨ctx, resume, hrun, hdeliver⟩ := deliver_resume_iff DynamicBuffer.defaultEnv 64 64
    [.append [1, 13]] halfDelimiter 5 [13, 13, 10] [[13, 13]] [10]
    (by decide) (by decide) rfl (by decide) (by decide) (by decide +kernel) (by decide)
  have hec : (Transition.exec (deliver DynamicBuffer.defaultEnv) (.new 5 halfDelimiter [13, 13, 10], false)
      ([[13, 13]] ++ [[10]])).map (fun p => p.1.ec) = some .success := by decide +kernel
  rw [hrun] at hec
  have hec := Option.some.inj hec
  exact ⟨ctx, resume, hrun, hec, hdeliver hec⟩

end SmartRoutine
