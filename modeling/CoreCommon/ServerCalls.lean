import CoreCommon.ServerRequestLine

/-! What a handler is told, over every order of callbacks: the segments of the path, then that this
was the path, then the content. -/
namespace CoreCommon.Server
open ParseMap
open Config (cStr)

/-! ### Segments -/

section segments
variable {s : List Char} {σ : Type} {e e' : ParseMap σ Unit Unit} {f g : Char → Bool}

/-- The character at an offset, which may be the NUL. -/
def charAt (s : List Char) (i : ℕ) : Char := (s.drop i).headD '\x00'

/-- The expression fails only before a character that `f` does not hold of, wherever the cursor
is, and then changes nothing. -/
def Spots (s : List Char) (e : ParseMap σ Unit Unit) (f : Char → Bool) : Prop :=
  ∀ fuel (p q : Parser Unit) st st', p.err = false → run s fuel e p st = .ok (q, st') → q.err = true →
    q.span = p.span ∧ st' = st ∧ (p.span.length ≠ 0 → f (charAt s p.span.text) = false)

lemma cstr_ok {i : ℕ} {t : List Char} (h : cstr s i = .ok t) : t = s.drop i := by
  unfold cstr at h
  split_ifs at h
  exact (Except.ok.inj h).symm

lemma spots_match {m : String} {d : Char} (hm : m.toList = [d]) (hd : d ≠ '\x00') :
    Spots s (.match_ m : ParseMap σ Unit Unit) (· == d) := by
  intro fuel p q st st' hp hrun herr
  obtain ⟨q', hq', heq⟩ := Run.bind_eq_ok.1 hrun
  cases heq
  unfold runMatch at hq'
  rw [hm, List.length_singleton] at hq'
  dsimp only at hq'
  split_ifs at hq' with hlen
  · cases hq'
    exact ⟨rfl, rfl, fun hne => absurd (Nat.lt_one_iff.1 hlen) hne⟩
  · obtain ⟨t, ht, hq'⟩ := Run.bind_eq_ok.1 hq'
    have hdrop : t = s.drop p.span.text := cstr_ok ht
    split_ifs at hq' with hhead
    · cases hq'
      exact absurd (hp.symm.trans herr) Bool.false_ne_true
    · cases hq'
      refine ⟨rfl, rfl, fun _ => ?_⟩
      rw [charAt, ← hdrop]
      cases t with
      | nil => exact beq_eq_false_iff_ne.2 hd.symm
      | cons c t =>
        refine beq_eq_false_iff_ne.2 fun hc => hhead ?_
        obtain rfl : c = d := hc
        rw [List.isPrefixOf_cons_cons, beq_self_eq_true, Bool.true_and, List.isPrefixOf_nil_left]

lemma spots_ws : Spots s (.parseWS : ParseMap σ Unit Unit) isWS := by
  intro fuel p q st st' hp hrun herr
  obtain ⟨q', hq', heq⟩ := Run.bind_eq_ok.1 hrun
  cases heq
  unfold runWS at hq'
  dsimp only at hq'
  split_ifs at hq' with hlen
  · cases hq'
    exact ⟨rfl, rfl, fun hne => absurd hlen hne⟩
  · obtain ⟨c, hc, hq'⟩ := Run.bind_eq_ok.1 hq'
    obtain ⟨t, ht, hchar⟩ := Run.bind_eq_ok.1 hc
    have hdrop : t = s.drop p.span.text := cstr_ok ht
    split_ifs at hq' with hws
    · cases hq'
      exact absurd (hp.symm.trans herr) Bool.false_ne_true
    · cases hq'
      refine ⟨rfl, rfl, fun _ => ?_⟩
      rw [charAt, ← hdrop, Except.ok.inj hchar, isWS, decide_eq_false_iff_not]
      exact hws

lemma Spots.or (he : Spots s e f) (he' : Spots s e' g) :
    Spots s (.or e e') fun c => f c || g c := by
  intro fuel p q st st' hp hrun herr
  rw [run] at hrun
  obtain ⟨⟨q₁, st₁⟩, hq₁, hnext⟩ := Run.bind_eq_ok.1 hrun
  dsimp only at hnext
  by_cases herr₁ : q₁.err = true
  · rw [if_pos herr₁] at hnext
    obtain ⟨-, rfl, hf⟩ := he fuel p q₁ st st₁ hp hq₁ herr₁
    obtain ⟨hspan, rfl, hg⟩ := he' fuel p q _ st' hp hnext herr
    exact ⟨hspan, rfl, fun hne => Bool.or_eq_false_iff.2 ⟨hf hne, hg hne⟩⟩
  · rw [if_neg herr₁] at hnext
    cases hnext
    exact absurd herr herr₁

lemma spots_pathTerminator : Spots s (pathTerminator : ParseMap σ Unit Unit) endsSegment :=
  ((spots_match rfl (by decide)).or spots_ws).or (spots_match rfl (by decide))

lemma drop_charAt {i : ℕ} (h : charAt s i ≠ '\x00') : s.drop i = charAt s i :: s.drop (i + 1) := by
  have htail : s.drop (i + 1) = (s.drop i).tail := (List.tail_drop).symm
  rw [htail, charAt]
  cases ht : s.drop i with
  | nil =>
    rw [charAt, ht] at h
    exact absurd rfl h
  | cons c t => rfl

/-- A character of a segment is read only where there is one. -/
lemma plainChar_ok {fuel : ℕ} {p q : Parser Unit} {st st' : σ} (hp : p.err = false)
    (hrun : run s fuel (.chain (.not pathTerminator) .any) p st = .ok (q, st'))
    (hq : q.err = false) : q.span.text = p.span.text + 1 ∧
      ∃ c, endsSegment c = false ∧ s.drop p.span.text = c :: s.drop q.span.text := by
  obtain ⟨⟨q₁, st₁⟩, hq₁, hany⟩ := Run.bind_eq_ok.1 hrun
  obtain ⟨⟨q₂, st₂⟩, hq₂, hnot⟩ := Run.bind_eq_ok.1 hq₁
  cases hnot
  dsimp only at hany
  cases herr : q₂.err with
  | false =>
    simp only [herr, Bool.not_false, if_true] at hany
    cases hany
    cases hq
  | true =>
    obtain ⟨hspan, -, hend⟩ := spots_pathTerminator fuel p q₂ st _ hp hq₂ herr
    simp only [herr, Bool.not_true, Bool.false_eq_true, if_false, run, runAny] at hany
    split_ifs at hany with hlen
    · cases hany
      cases hq
    · cases hany
      have hchar := hend (by rwa [← hspan])
      have htext : (q₂.span.add 1).text = p.span.text + 1 := by
        rw [hspan]
        rfl
      refine ⟨htext, charAt s p.span.text, hchar, ?_⟩
      change _ = _ :: s.drop (q₂.span.add 1).text
      rw [htext]
      refine drop_charAt fun hnul => ?_
      rw [hnul] at hchar
      exact absurd hchar (by decide)

/-- A loop over such characters reads at least one, if it has to. -/
lemma plainLoop_ok {n fuel i : ℕ} {p q : Parser Unit} {st st' : σ} (hp : p.err = false)
    (hrun : manyLoop (fun p => run s n (.chain (.not pathTerminator) .any) p) 1 sizeMax fuel i p st =
      .ok (q, st')) (hq : q.err = false) : ∃ w, (∀ c ∈ w, endsSegment c = false) ∧
        s.drop p.span.text = w ++ s.drop q.span.text ∧ q.span.text = p.span.text + w.length ∧
          (i = 0 → w ≠ []) := by
  induction fuel generalizing i p st with
  | zero => cases hrun
  | succ fuel ih =>
    unfold manyLoop at hrun
    by_cases hmax : i < sizeMax
    · rw [if_pos hmax] at hrun
      obtain ⟨⟨r, st₁⟩, hr, hnext⟩ := Run.bind_eq_ok.1 hrun
      dsimp only at hnext
      cases herr : r.err with
      | true =>
        rw [if_pos herr] at hnext
        cases hnext
        by_cases hi : i < 1
        · rw [if_pos hi] at hq
          exact absurd (hq.symm.trans herr) Bool.false_ne_true
        · rw [if_neg hi]
          exact ⟨[], List.forall_mem_nil _, rfl, rfl, fun h => absurd h (by omega)⟩
      | false =>
        rw [if_neg (Bool.eq_false_iff.1 herr)] at hnext
        obtain ⟨htext, c, hc, hdrop⟩ := plainChar_ok hp hr herr
        obtain ⟨w, hw, hdrop', htext', -⟩ := ih (show (p.withSpan r.span).err = false from hp) hnext
        refine ⟨c :: w, List.forall_mem_cons.2 ⟨hc, hw⟩, ?_, ?_, fun _ => List.cons_ne_nil _ _⟩
        · rw [hdrop, List.cons_append]
          exact congrArg (c :: ·) hdrop'
        · rw [List.length_cons, htext', Nat.add_comm w.length, ← Nat.add_assoc, ← htext]
          rfl
    · rw [if_neg hmax] at hrun
      cases hrun
      refine ⟨[], List.forall_mem_nil _, rfl, rfl, fun hi => absurd ?_ hmax⟩
      rw [hi]
      decide

lemma isSegment_of_plain {seg : List Char} (hne : seg ≠ [])
    (hseg : ∀ c ∈ seg, endsSegment c = false) : IsSegment seg := by
  refine ⟨hne, fun c hc hmem => ?_⟩
  have hends := hseg c hc
  fin_cases hmem <;> cases hends

/-- A segment read is told to the handler, and has nothing in it that ends one. -/
lemma segment_told {fuel : ℕ} {p q : Parser Unit} {req req' : Request} (hp : p.err = false)
    (hrun : run s fuel segment p req = .ok (q, req')) :
    req' = req ∨ ∃ seg, IsSegment seg ∧ req' = req.call (.onSegmentRecv seg) := by
  obtain ⟨⟨r, req₁⟩, hr, hnext⟩ := Run.bind_eq_ok.1 hrun
  obtain ⟨⟨r₁, req₂⟩, hloop, hstring⟩ := Run.bind_eq_ok.1 hr
  have hkeep : req₂ = req := by
    refine run_leaves s fuel (.many 1 sizeMax (.chain (.not pathTerminator) .any)) ?_ p req rfl r₁
      req₂ hloop (I := fun st => st = req)
    simp [Stable, pathTerminator]
  cases hstring
  dsimp only at hnext
  subst hkeep
  cases herr : r₁.err with
  | true =>
    simp only [Parser.unlessErr, herr, if_true, Parser.cast] at hnext
    cases hnext
    exact .inl rfl
  | false =>
    obtain ⟨w, hw, hdrop, htext, hne⟩ := plainLoop_ok hp hloop herr
    have hseg : (s.drop p.span.text).take (r₁.span.text - p.span.text) = w := by
      rw [hdrop, htext, Nat.add_sub_cancel_left, List.take_left]
    simp only [Parser.unlessErr, herr, Bool.false_eq_true, if_false, Parser.withRes, hseg] at hnext
    cases hnext
    exact .inr ⟨w, isSegment_of_plain (hne rfl) hw, rfl⟩

end segments

/-! ### The path -/

section path
variable {σ A B C : Type} {s : List Char} {I J : σ → Prop}

/-- From a cursor without an error, a run keeps the property of the captured variables. -/
def Holds (s : List Char) (I : σ → Prop) (e : ParseMap σ A B) : Prop :=
  ∀ fuel (p : Parser A) st, p.err = false → I st → Leaves I (run s fuel e p st)

lemma Holds.of_stable {e : ParseMap σ A B} (he : e.Stable I) : Holds s I e :=
  fun fuel p st _ h => run_leaves s fuel e he p st h

lemma Holds.chain [Inhabited C] {l : ParseMap σ A B} {r : ParseMap σ B C} (hl : Holds s I l)
    (hr : Holds s I r) : Holds s I (.chain l r) := by
  intro fuel p st hp h
  unfold run
  refine (hl fuel p st hp h).bind fun q st hst => ?_
  dsimp only
  cases herr : q.err with
  | true => exact leaves_ok hst
  | false => exact hr fuel q st herr hst

lemma Holds.combine [Inhabited C] {e : ParseMap σ A B} {f : A → B → C} (he : Holds s I e) :
    Holds s I (.combine e f) := by
  intro fuel p st hp h
  unfold run
  exact (he fuel p st hp h).bind fun q st hst => leaves_ok hst

lemma Holds.many {min max : ℕ} {e : ParseMap σ A B} (he : Holds s I e) :
    Holds s I (.many min max e) := by
  intro fuel p st hp h
  unfold run
  have hloop : ∀ n i p st, p.err = false → I st →
      Leaves I (manyLoop (fun q => run s fuel e q) min max n i p st) := by
    intro n
    induction n with
    | zero => exact fun i p st _ _ => leaves_error _
    | succ n ih =>
      intro i p st hp h
      unfold manyLoop
      by_cases hmax : i < max
      · rw [if_pos hmax]
        refine (he fuel p st hp h).bind fun q st hst => ?_
        dsimp only
        split_ifs
        · exact leaves_ok hst
        · exact leaves_ok hst
        · exact ih _ _ _ hp hst
      · rw [if_neg hmax]
        exact leaves_ok h
  exact hloop fuel 0 p st hp h

end path

/-! ### The order of the calls -/

/-- The call hands over a part of the request. -/
def Call.IsData : Call → Bool
  | .onSegmentRecv _ => true
  | .onPathRecv => true
  | .onContentRecv _ => true
  | _ => false

namespace Request

/-- What the handler has been told of the request, without errors and the end. -/
def told (req : Request) : List Call := req.calls.filter Call.IsData

/-- Segments only. -/
def ToldPath (req : Request) : Prop :=
  ∃ segs : List (List Char), (∀ seg ∈ segs, IsSegment seg) ∧ req.told = segs.map .onSegmentRecv

/-- All segments, then that this was the path, then the content at most `n` times. -/
def ToldContent (n : ℕ) (req : Request) : Prop :=
  ∃ (segs : List (List Char)) (contents : List (Option RequestContent)),
    (∀ seg ∈ segs, IsSegment seg) ∧ contents.length ≤ n ∧
    req.told = segs.map .onSegmentRecv ++ .onPathRecv :: contents.map .onContentRecv

/-- What the handler has been told, by the state of parsing. -/
def Told (req : Request) : Prop :=
  match req.pstate with
  | .requestLine => req.told = []
  | .done => req.ToldContent 2
  | _ => req.ToldContent 1

end Request

section told
variable {req req' : Request} {n : ℕ}

lemma told_call (req : Request) {c : Call} (hc : c.IsData = true) :
    (req.call c).told = req.told ++ [c] := by
  simp [Request.told, Request.call, hc]

lemma told_call_end (req : Request) {c : Call} (hc : c.IsData = false) :
    (req.call c).told = req.told := by
  simp [Request.told, Request.call, hc]

lemma Request.ToldContent.of_calls (h : req.ToldContent n) (hcalls : req'.calls = req.calls) :
    req'.ToldContent n := by
  unfold Request.ToldContent Request.told at h ⊢
  rwa [hcalls]

lemma Request.ToldContent.mono {m : ℕ} (h : req.ToldContent n) (hle : n ≤ m) :
    req.ToldContent m := by
  obtain ⟨segs, contents, hsegs, hlen, htold⟩ := h
  exact ⟨segs, contents, hsegs, hlen.trans hle, htold⟩

lemma Request.ToldContent.contentRecv (h : req.ToldContent n) :
    req.contentRecv.ToldContent (n + 1) := by
  obtain ⟨segs, contents, hsegs, hlen, htold⟩ := h
  refine ⟨segs, contents ++ [req.content], hsegs, by simpa using hlen, ?_⟩
  rw [Request.contentRecv, told_call req rfl, htold, List.map_append, List.append_assoc,
    List.cons_append]
  rfl

lemma Request.ToldPath.segment (h : req.ToldPath) {seg : List Char} (hseg : IsSegment seg) :
    (req.call (.onSegmentRecv seg)).ToldPath := by
  obtain ⟨segs, hsegs, htold⟩ := h
  refine ⟨segs ++ [seg], List.forall_mem_append.2 ⟨hsegs, List.forall_mem_singleton.2 hseg⟩, ?_⟩
  rw [told_call req rfl, htold, List.map_append]
  rfl

lemma Request.ToldPath.path (h : req.ToldPath) : (req.call .onPathRecv).ToldContent 0 := by
  obtain ⟨segs, hsegs, htold⟩ := h
  exact ⟨segs, [], hsegs, le_rfl, by rw [told_call req rfl, htold]; rfl⟩

/-- A property of what the handler has been told is kept where nothing is told. -/
lemma Request.Told.of_eq (h : req.Told) (hcalls : req'.calls = req.calls)
    (hstate : req'.pstate = req.pstate) : req'.Told := by
  unfold Request.Told Request.ToldContent Request.told at h ⊢
  rwa [hcalls, hstate]

end told

section reading
variable {reads : List Call → Bool} {hash : List Char → UInt64} {fuel : ℕ} {s : List Char}

lemma path_told : Holds s Request.ToldPath path := by
  have hsegment : Holds s Request.ToldPath segment := by
    intro fuel p req hp h q req' hrun
    obtain rfl | ⟨seg, hseg, rfl⟩ := segment_told hp hrun
    · exact h
    · exact h.segment hseg
  have hfirst : Holds s Request.ToldPath
      (.chain .ignore (manyOf (.or (.match_ "/") .parseWS)) : ParseMap Request Method Unit) :=
    .of_stable (by simp [Stable, manyOf])
  have hslash : Holds s Request.ToldPath (.skipMap (.match_ "/") : ParseMap Request Unit Unit) :=
    .of_stable (by simp [Stable])
  exact hfirst.chain (hsegment.combine.chain (hslash.chain hsegment).many).many

/-- A parser that tells the handler of its result, at its end. -/
lemma chain_tells {A B : Type} {I J : Request → Prop} {l : ParseMap Request A B}
    (hl : l.Stable I) {f : B → Request → Unit × Request} (hI : ∀ req, I req → J req)
    (hf : ∀ b req, I req → J (f b req).2) {p : Parser A} {req : Request} (h : I req) :
    Leaves J (run s fuel (.chain l (.resultMap f)) p req) := by
  unfold run
  have hleaves := run_leaves s fuel l hl p req h
  intro q req' hrun
  obtain ⟨⟨r, req₁⟩, hr, hnext⟩ := Run.bind_eq_ok.1 hrun
  have h₁ := hleaves r req₁ hr
  dsimp only at hnext
  cases herr : r.err with
  | true =>
    rw [if_pos herr] at hnext
    cases hnext
    exact hI _ h₁
  | false =>
    rw [if_neg (Bool.eq_false_iff.1 herr)] at hnext
    cases hnext
    exact hf _ _ h₁

lemma querystring_keeps {I : Request → Prop} (s : List Char) : (querystring s).Stable I := by
  intro fuel p st q st' hrun h
  obtain ⟨r, -, hr⟩ := Run.bind_eq_ok.1 hrun
  cases hr
  exact h

lemma multipart_keeps {I : Request → Prop} (hI : ∀ req data, I req → I (req.pushPart data))
    (s boundary : List Char) : (multipart s boundary).Stable I := by
  have hpart : (part s boundary).Stable I := by
    intro fuel p st q st' hrun h
    obtain ⟨r, -, hrun⟩ := Run.bind_eq_ok.1 hrun
    obtain ⟨span, -, hrun⟩ := Run.bind_eq_ok.1 hrun
    cases hrun
    exact hI _ _ h
  simp [multipart, Stable, manyOf, ParseMap.skip, newl, hpart]

/-- A result of reading whose handler has been told what it should. -/
def LeavesTold (x : Run (Request × Bool)) : Prop := ∀ req err, x = .ok (req, err) → req.Told

variable {req : Request}

lemma leavesTold_ok {err : Bool} (h : req.Told) : LeavesTold (.ok (req, err)) := by
  intro req' err' heq
  cases heq
  exact h

lemma LeavesTold.bind {α : Type} {x : Run α} {f : α → Run (Request × Bool)}
    (hf : ∀ a, x = .ok a → LeavesTold (f a)) : LeavesTold (x >>= f) := by
  cases x with
  | ok a => exact hf a rfl
  | error e => exact nofun

/-- A parser expression that leaves the request with a property. -/
lemma LeavesTold.after {α : Type} {J : Request → Prop} {x : Run (Parser α × Request)}
    {f : Parser α × Request → Run (Request × Bool)} (hx : Leaves J x)
    (hf : ∀ q req, J req → LeavesTold (f (q, req))) : LeavesTold (x >>= f) :=
  LeavesTold.bind fun r hr => hf r.1 r.2 (hx r.1 r.2 hr)

lemma readRequestLine_told (line : List Char) (hstate : req.pstate = .requestLine)
    (h : req.Told) : LeavesTold (readRequestLine reads fuel line req) := by
  have htold : req.told = [] := by
    unfold Request.Told at h
    rwa [hstate] at h
  have hmethod : method.Stable fun req => req.pstate = .requestLine ∧ req.told = [] := by
    simp [method, methodNamed, Stable, manyOf]
  refine LeavesTold.after (run_leaves line fuel method hmethod _ req ⟨hstate, htold⟩) ?_
  intro m req h
  dsimp only
  cases herr : m.err with
  | true =>
    refine leavesTold_ok ?_
    unfold Request.Told
    rw [h.1]
    exact h.2
  | false =>
    rw [if_neg Bool.false_ne_true]
    refine LeavesTold.after (path_told fuel m req herr ⟨[], List.forall_mem_nil _, h.2⟩) fun p req h => ?_
    dsimp only
    split_ifs
    · have hquery : Leaves (Request.ToldContent 1) (run line fuel (query line) p
          (req.call .onPathRecv)) := by
        have hread : (.chain (.match_ "?") (querystring line) : ParseMap Request Unit _).Stable
            (Request.ToldContent 0) := ⟨trivial, querystring_keeps line⟩
        refine chain_tells hread (fun req h => h.mono (Nat.zero_le 1)) (fun x req h => ?_) h.path
        have hset : (req.setContent ⟨0, x, []⟩).ToldContent 0 := h.of_calls rfl
        exact hset.contentRecv
      refine LeavesTold.after hquery fun q req h => leavesTold_ok ?_
      exact (h.of_calls rfl : (req.moveTo .headers).ToldContent 1)
    · refine leavesTold_ok ?_
      have hpath := h.path.mono (Nat.zero_le 1)
      exact (hpath.of_calls rfl : ((req.call .onPathRecv).moveTo .headers).ToldContent 1)

lemma readHeader_told (line : List Char) (h : req.Told) :
    LeavesTold (readHeader hash fuel line req) := by
  refine LeavesTold.bind fun hdr _ => ?_
  dsimp only
  split_ifs
  · exact leavesTold_ok h
  · exact LeavesTold.bind fun r _ => leavesTold_ok (h.of_eq rfl rfl)

lemma setLength_told (h : req.Told) (n : ℤ) : (req.setLength n).Told := by
  unfold Request.setLength
  cases req.content <;> exact h.of_eq rfl rfl

lemma readHeaders_told (line : List Char) (hstate : req.pstate = .headers) (h : req.Told) :
    LeavesTold (readHeaders reads hash fuel line req) := by
  unfold readHeaders
  by_cases hblank : line.length = 0
  · rw [if_pos hblank]
    have htold : req.ToldContent 1 := by
      unfold Request.Told at h
      rwa [hstate] at h
    refine leavesTold_ok ?_
    cases req.content.isSome with
    | true => exact (htold.of_calls rfl : (req.moveTo .content).ToldContent 1)
    | false =>
      have htold' := htold.mono (Nat.le_succ 1)
      exact (htold'.of_calls rfl : (req.moveTo .done).ToldContent 2)
  · rw [if_neg hblank]
    split_ifs
    · refine LeavesTold.bind fun clength _ => ?_
      dsimp only
      split_ifs
      · exact readHeader_told line h
      · exact leavesTold_ok (setLength_told h _)
    · exact readHeader_told line h

lemma readLine_told (line : List Char) (h : req.Told) :
    LeavesTold (readLine reads hash fuel line req) := by
  unfold readLine
  cases hstate : req.pstate with
  | requestLine => exact readRequestLine_told line hstate h
  | headers => exact readHeaders_told line hstate h
  | content => exact leavesTold_ok h
  | done => exact leavesTold_ok h

lemma readContent_told (content : List Char) (hstate : req.pstate = .content) (h : req.Told) :
    LeavesTold (readContent reads hash fuel content req) := by
  have htold : req.ToldContent 1 := by
    unfold Request.Told at h
    rwa [hstate] at h
  have hdone : ∀ {req : Request}, req.ToldContent 2 → (req.moveTo .done).Told :=
    fun h => (h.of_calls rfl : Request.ToldContent 2 _)
  refine LeavesTold.bind fun ctype _ => ?_
  cases ctype with
  | none => exact leavesTold_ok h
  | some ctype =>
    dsimp only
    split_ifs
    · have hform : Leaves (Request.ToldContent 2) (run (cStr content) fuel
          (.chain (querystring (cStr content)) (.resultMap fun formdata req =>
            ((), (req.setFormdata formdata).contentRecv))) (.ofText (cStr content)) req) := by
        refine chain_tells (I := Request.ToldContent 1) (querystring_keeps _)
          (fun req h => h.mono (Nat.le_succ 1)) (fun x req h => ?_) htold
        have hset : (req.setFormdata x).ToldContent 1 := h.of_calls rfl
        exact hset.contentRecv
      exact LeavesTold.after hform fun q req h => leavesTold_ok (hdone h)
    · exact leavesTold_ok (hdone (htold.mono (Nat.le_succ 1)))
    · cases ctype.extra.find? fun x => x.1 = "boundary".toList with
      | none => exact leavesTold_ok h
      | some boundary =>
        have hparts := multipart_keeps (I := fun req => req.pstate = .content ∧ req.ToldContent 1)
          (fun req data h => ⟨h.1, h.2.of_calls rfl⟩) (cStr content) boundary.2
        refine LeavesTold.after (run_leaves (cStr content) fuel _ hparts _ req ⟨hstate, htold⟩)
          fun parsed req h => ?_
        dsimp only
        split_ifs
        · refine leavesTold_ok ?_
          unfold Request.Told
          rw [h.1]
          exact h.2
        · exact leavesTold_ok (hdone h.2.contentRecv)
    · exact leavesTold_ok h

end reading

/-! ### Over a run of callbacks -/

section runs
variable {reads : List Call → Bool} {hash : List Char → UInt64} {fuel : ℕ} {c c' : Conn}

lemma lineLoop_told {steps : ℕ} {err : Bool} (h : c.req.Told)
    (hrun : lineLoop reads hash fuel steps c = .ok (c', err)) : c'.req.Told := by
  induction steps generalizing c with
  | zero => cases hrun
  | succ steps ih =>
    unfold lineLoop at hrun
    cases hline : readln c.input with
    | none =>
      rw [hline] at hrun
      cases hrun
      exact h
    | some r =>
      rw [hline] at hrun
      obtain ⟨⟨req, e⟩, hread, hrun⟩ := Run.bind_eq_ok.1 hrun
      have htold : ((c.take r.2).withReq req).req.Told := readLine_told _ h req e hread
      cases e with
      | true =>
        cases hrun
        exact htold
      | false => exact ih htold hrun

lemma receive_told {err : Bool} (h : c.req.Told)
    (hrun : receive reads hash fuel c = .ok (c', err)) : c'.req.Told := by
  unfold receive at hrun
  cases hstate : c.req.pstate with
  | requestLine | headers =>
    rw [hstate] at hrun
    exact lineLoop_told h hrun
  | content =>
    rw [hstate] at hrun
    cases hcontent : c.req.content with
    | none =>
      rw [hcontent] at hrun
      cases hrun
    | some content =>
      rw [hcontent] at hrun
      dsimp only at hrun
      split_ifs at hrun
      · cases hrun
        exact h
      · obtain ⟨⟨req, e⟩, hread, hrun⟩ := Run.bind_eq_ok.1 hrun
        cases hrun
        exact readContent_told _ hstate h req _ hread
      · cases hrun
        exact h
  | done =>
    rw [hstate] at hrun
    cases hrun
    exact h

/-- Errors and the end are no part of what is told. -/
lemma Request.Told.ended {req : Request} (h : req.Told) {call : Call} (hcall : call.IsData = false) :
    (req.call call).Told := by
  unfold Request.Told Request.ToldContent at h ⊢
  rw [told_call_end req hcall]
  exact h

lemma close_told (h : c.req.Told) : c.close.req.Told := h.ended rfl

lemma destroy_told (h : c.req.Told) : c.destroy.req.Told := by
  unfold Conn.destroy
  dsimp only
  split_ifs
  · exact h
  · exact close_told h

lemma parseErr_told (h : c.req.Told) : c.parseErr.req.Told :=
  destroy_told (destroy_told (Request.Told.ended h rfl))

lemma step_told (h : c.req.Told) {e : Event} (hstep : step reads hash fuel c e = .ok c') :
    c'.req.Told := by
  cases e with
  | read bytes =>
    obtain ⟨⟨d, err⟩, hreceive, hd⟩ := Run.bind_eq_ok.1 hstep
    have htold : d.req.Told := receive_told (c := c.more bytes) h hreceive
    cases hd
    cases err with
    | true => exact parseErr_told htold
    | false => exact htold
  | write flush =>
    cases hstep
    unfold writecb
    split_ifs
    · exact close_told (c := c.withReq { c.req with closed := true }) (h.of_eq rfl rfl)
    · exact h
  | event events =>
    cases hstep
    unfold eventcb
    split_ifs
    · exact destroy_told (close_told h)
    · exact h
  | respond =>
    cases hstep
    exact h.of_eq rfl rfl

lemma Trace.told {l : List (Conn × ℕ × Event)} (h : Trace reads hash l c) : c.req.Told := by
  induction h with
  | accept haccept =>
    obtain ⟨headers, -, hc⟩ := Run.bind_eq_ok.1 haccept
    cases hc
    exact rfl
  | step htrace hlive fuel e hstep ih => exact step_told ih hstep

/-- Over every run of callbacks on a connection, whatever the bytes and however they arrive: before
its request line has been read the handler is told nothing. From then on it has been told of the
segments, each not empty and without slashes, question marks, white space or NULs, then once that
this was the path, and only then of content, at most twice. -/
theorem calls_in_order {l : List (Conn × ℕ × Event)} (h : Trace reads hash l c) :
    (c.req.pstate = .requestLine → c.req.told = []) ∧
    (c.req.pstate ≠ .requestLine →
      ∃ (segs : List (List Char)) (contents : List (Option RequestContent)),
        (∀ seg ∈ segs, IsSegment seg) ∧ contents.length ≤ 2 ∧
        (c.req.pstate ≠ .done → contents.length ≤ 1) ∧
        c.req.told = segs.map .onSegmentRecv ++ .onPathRecv :: contents.map .onContentRecv) := by
  have htold := h.told
  unfold Request.Told at htold
  cases hstate : c.req.pstate with
  | requestLine =>
    rw [hstate] at htold
    exact ⟨fun _ => htold, fun hne => absurd rfl hne⟩
  | done =>
    rw [hstate] at htold
    obtain ⟨segs, contents, hsegs, hlen, htold⟩ := htold
    exact ⟨nofun, fun _ => ⟨segs, contents, hsegs, hlen, fun hne => absurd rfl hne, htold⟩⟩
  | headers | content =>
    rw [hstate] at htold
    obtain ⟨segs, contents, hsegs, hlen, htold⟩ := htold
    exact ⟨nofun, fun _ => ⟨segs, contents, hsegs, hlen.trans one_le_two, fun _ => hlen, htold⟩⟩

end runs

/-- `GET /a` and a line end, on a new connection. -/
lemma exists_trace_get : ∃ c,
    Trace (fun _ => false) (fun _ => 257) [(freshConn, 30, .read "GET /a\r\n".toList)] c ∧
      c.req.told = [.onSegmentRecv ['a'], .onPathRecv] :=
  ⟨_, .step (.accept (accept_eq fun _ => 257)) rfl 30 (.read "GET /a\r\n".toList)
    (rfl : step (fun _ => false) (fun _ => 257) 30 freshConn (.read "GET /a\r\n".toList) = .ok _),
    rfl⟩

/-- One segment and no content. -/
theorem calls_in_order_get :
    ∃ c, Trace (fun _ => false) (fun _ => 257) [(freshConn, 30, .read "GET /a\r\n".toList)] c ∧
      c.req.told = [.onSegmentRecv ['a'], .onPathRecv] ∧
      (c.req.pstate = .requestLine → c.req.told = []) ∧
      (c.req.pstate ≠ .requestLine →
        ∃ (segs : List (List Char)) (contents : List (Option RequestContent)),
          (∀ seg ∈ segs, IsSegment seg) ∧ contents.length ≤ 2 ∧
          (c.req.pstate ≠ .done → contents.length ≤ 1) ∧
          c.req.told = segs.map .onSegmentRecv ++ .onPathRecv :: contents.map .onContentRecv) := by
  obtain ⟨c, htrace, htold⟩ := exists_trace_get
  exact ⟨c, htrace, htold, calls_in_order htrace⟩

end CoreCommon.Server
