import Quarks.Routing.SameService

/-!
# Shared routes that read a body

Over TCP the text of a body is always empty, so that what is done with it over HTTP is refused.
A callback that asks for the value of the body gets it over both interfaces.
-/

namespace Quarks

open Basis

namespace Routing

section

variable [HashOrder] [UnstableSort] {c : Config} {outside : Outside} {n : Node} {request : Bytes}
  {route : Bytes} {req : HttpRouter.Request} {x : RValue} (hmirrors : Mirrors route req x)
  (hload : load request = some x)
include hmirrors hload

/-! ## Routes on the text of the body -/

/-- Over TCP the text of the body is always empty: the answers agree where it is refused. -/
theorem servesAlike_text {f : Bytes → CoreM (Bool × Bytes)} {refusal : Bytes}
    (hf : ReadsDocument f refusal) (hstring : (routingTableString c outside).lookup route =
      some fun r => do return (← f r.body).2)
    (hjson : (routingTableJson c outside).lookup route = none) :
    ServesAlike n (dispatch c outside request) (do return (← f req.bodyText).2) ↔
      IsAnswered c n request ∧ IsAccepted x ∧ load req.bodyText = none := by
  have hdispatch : ∀ r, Request.make request = .ok r → ReadsAlike route req r →
      dispatch c outside request = pure refusal := by
    intro r hmake hreads
    rw [dispatch_string _ hmake hreads hstring hjson, hreads.body, hf.refused [] rfl]
    rfl
  refine servesAlike_iff hmirrors hload ?_ (fun r hmake hreads hanswered hnone => ?_)
    fun r hmake hreads hsome => ?_
  · cases hbody : load req.bodyText with
    | none =>
      rw [hf.refused _ hbody]
      exact Prog.Always.pure hf.refusal_ne
    | some v => exact (hf.answered _ v hbody).bind fun r hr => Prog.Always.pure hr.2
  · refine servesAlike_of_eq hmirrors hload ?_ hanswered
    rw [hdispatch r hmake hreads, hf.refused _ hnone]
    rfl
  · obtain ⟨v, hv⟩ := Option.ne_none_iff_exists'.mp hsome
    have hrefused : (dispatch c outside request).Always (· = refusal) fun _ => True := by
      rw [hdispatch r hmake hreads]
      exact Prog.Always.pure rfl
    have hanswers : (do return (← f req.bodyText).2 : CoreM Bytes).Always (· ≠ refusal)
        fun _ => True :=
      (hf.answered _ v hv).bind fun r hr => Prog.Always.pure hr.1
    exact not_servesAlike hrefused hanswers fun _ h hne => hne h

/-- The answer to a multiple listing without a body. -/
def noContent : WValue := WValue.null.set (ascii "error")
  (.string (ascii "\x7b\"error\":\"parameter 'body' missing or has no content\"\x7d"))

omit hmirrors hload [HashOrder] [UnstableSort] in
/-- With a body, the multiple listing has a result. -/
theorem always_getkeysmulti (hbody : req.bodyText ≠ []) :
    (HttpRouter.routeCoreGetkeysmultiCallback c outside req).Always
      (fun w => w.Distinct ∧ ∃ l, w.field? (ascii "result") = some (.list l)) fun _ => True := by
  unfold HttpRouter.routeCoreGetkeysmultiCallback
  rw [if_neg hbody]
  refine (always_catchWhat (E := PassesBarrier) ?_ fun what => ?_).mono (fun _ h => h)
    fun _ _ => trivial
  · refine (always_window _).bind fun win _ => (always_op _).bind fun store _ => ?_
    split
    · next r _ =>
      exact Prog.Always.pure ⟨(queryAnswer_fields r).1, _, (queryAnswer_fields r).2⟩
    · exact Prog.Always.throw rfl
  · unfold jsonError
    exact ⟨(distinct_set _ _).set _ _, [], by rw [WValue.field?_set, if_pos rfl]⟩

/-- The multiple listing asks for the text of the body, too. -/
theorem servesAlike_getkeysmulti (hroute : route = ascii "/getkeysmulti") :
    ServesAlike n (dispatch c outside request)
        (HttpRouter.printed (HttpRouter.routeCoreGetkeysmultiCallback c outside req)) ↔
      IsAnswered c n request ∧ IsAccepted x ∧ req.bodyText = [] := by
  subst hroute
  have hdistinct : noContent.Distinct := distinct_set _ _
  have hmissing : dump noContent ≠ dispatchError := by
    obtain ⟨text, htext, hne⟩ : ∃ text, noContent.field? (ascii "error") = some (.string text) ∧
        escape text ≠ ascii "dispatch error" :=
      ⟨_, by rw [noContent, WValue.field?_set, if_pos rfl], by decide +kernel⟩
    exact dump_ne_of_error hdistinct htext hne
  have hdispatch : ∀ r, Request.make request = .ok r → ReadsAlike (ascii "/getkeysmulti") req r →
      dispatch c outside request = pure (dump noContent) := by
    intro r hmake hreads
    rw [dispatch_json (routeCoreGetkeysmultiCallback c outside) hmake hreads rfl rfl,
      routeCoreGetkeysmultiCallback, if_pos hreads.body]
    rfl
  refine servesAlike_iff hmirrors hload ?_ (fun r hmake hreads hanswered hnil => ?_)
    fun r hmake hreads hne => ?_
  · by_cases hne : req.bodyText = []
    · unfold HttpRouter.printed HttpRouter.routeCoreGetkeysmultiCallback
      rw [if_pos hne]
      exact Prog.Always.pure hmissing
    · refine (always_getkeysmulti hne).bind fun w ⟨hw, l, hresult⟩ => Prog.Always.pure ?_
      exact dump_ne_of_other hw hresult (by decide)
  · refine servesAlike_of_eq hmirrors hload ?_ hanswered
    rw [hdispatch r hmake hreads]
    unfold HttpRouter.printed HttpRouter.routeCoreGetkeysmultiCallback
    rw [if_pos hnil]
    rfl
  · have hrefused : (dispatch c outside request).Always (· = dump noContent) fun _ => True := by
      rw [hdispatch r hmake hreads]
      exact Prog.Always.pure rfl
    have hprinted : (HttpRouter.printed
        (HttpRouter.routeCoreGetkeysmultiCallback c outside req)).Always
          (· ≠ dump noContent) fun _ => True := by
      refine (always_getkeysmulti hne).bind fun w ⟨hw, l, hresult⟩ => Prog.Always.pure fun h => ?_
      have hfields := map_reread_field? hw hdistinct h (ascii "result")
      rw [hresult] at hfields
      cases hfields
    exact not_servesAlike hrefused hprinted fun _ h hne => hne h

/-! ## Increments and made pairs -/

/-- The arguments of an increment can be read. -/
structure IncrementReads (v : RValue) : Prop where
  key : ∃ key, (v.field (ascii "key")).bind RValue.s = .ok key
  step : ∃ step, (v.field (ascii "step")).bind RValue.i = .ok step

/-- Without a document the texts of the refusals differ, and over HTTP arguments that cannot be read
bring the callback down. -/
theorem servesAlike_incr (hroute : route = ascii "/incr") :
    ServesAlike n (dispatch c outside request) (HttpRouter.routeCoreIncrCallback c req) ↔
      IsAnswered c n request ∧ IsAccepted x ∧
        ∃ v, load req.bodyText = some v ∧ IncrementReads v := by
  subst hroute
  have hincrement : ∀ key step, (do return (← increment c key step).2 : CoreM Bytes).Always
      (· ≠ dispatchError) fun _ => False := by
    intro key step
    have hall : ∀ t ∈ incrementAnswers, t ≠ dispatchError := by decide +kernel
    exact (always_increment c key step).bind fun r hr => Prog.Always.pure (hall _ hr)
  have hdispatch : ∀ r, Request.make request = .ok r → ReadsAlike (ascii "/incr") req r →
      dispatch c outside request = catchWhat (routeCoreIncrCallback c r) fun _ => dispatchError :=
    fun r hmake hreads => dispatch_string (routeCoreIncrCallback c) hmake hreads rfl rfl
  refine servesAlike_iff hmirrors hload ?_ (fun r hmake hreads hanswered hC => ?_)
    fun r hmake hreads hC => ?_
  · exact always_withBody (by decide +kernel) fun v => (always_ofExcept_any _).bind fun key _ =>
      (always_ofExcept_any _).bind fun step _ =>
        (hincrement key _).mono (fun _ h => h) fun _ _ => trivial
  · obtain ⟨v, hv, ⟨key, hkey⟩, ⟨step, hstep⟩⟩ := hC
    have hhttp : HttpRouter.routeCoreIncrCallback c req =
        do return (← increment c key (int32 step)).2 := by
      unfold HttpRouter.routeCoreIncrCallback HttpRouter.Request.withBody
      simp only [hv, hkey, hstep, ofExcept, pure_bind]
    have hsame : routeCoreIncrCallback c r = HttpRouter.routeCoreIncrCallback c req := by
      rw [hhttp]
      unfold routeCoreIncrCallback withBody
      simp only [hreads.bodyJson, hv, hkey, hstep, ofExcept, pure_bind]
    refine servesAlike_of_eq hmirrors hload ?_ hanswered
    rw [hdispatch r hmake hreads, hsame, hhttp]
    exact catchWhat_eq ((hincrement key _).mono (fun _ h => h) fun _ h => h.elim)
  · cases hbody : load req.bodyText with
    | none =>
      have hrefused : dispatch c outside request =
          pure (ascii "\x7b\"error\":\"invalid parameters\"\x7d") := by
        rw [hdispatch r hmake hreads, routeCoreIncrCallback, withBody, hreads.bodyJson, hbody]
        rfl
      have hhttp : HttpRouter.routeCoreIncrCallback c req = pure (ascii "invalid Json Body") := by
        rw [HttpRouter.routeCoreIncrCallback, HttpRouter.Request.withBody, hbody]
      rw [hrefused, hhttp]
      refine not_servesAlike (P := (· = _)) (Q := (· = _)) (E := fun _ => True)
        (F := fun _ => True) rfl rfl ?_
      rintro _ rfl
      decide +kernel
    | some v =>
      refine not_servesAlike (Prog.Always.any _) (Q := fun _ => False) (F := fun _ => True) ?_
        fun _ _ h => h
      unfold HttpRouter.routeCoreIncrCallback HttpRouter.Request.withBody
      rw [hbody]
      refine (always_ofExcept (P := fun key => (v.field (ascii "key")).bind RValue.s = .ok key)
        (fun _ h => h) fun _ _ => trivial).bind fun key hkey => ?_
      refine (always_ofExcept (P := fun step => (v.field (ascii "step")).bind RValue.i = .ok step)
        (fun _ h => h) fun _ _ => trivial).bind fun step hstep => ?_
      exact absurd ⟨v, hbody, ⟨key, hkey⟩, ⟨step, hstep⟩⟩ hC

/-- An object with the key of a made pair, or with the error of a pair that has not been made. -/
def IsMade (w : WValue) : Prop :=
  w.Distinct ∧ ((∃ key, w.field? (ascii "key") = some (.string key)) ∨
    w.field? (ascii "error") = some (.string (ascii "runtime error")))

omit hmirrors hload [UnstableSort] in
/-- A JSON document is answered with such an object. -/
theorem always_make {v : RValue} (hbody : load req.bodyText = some v) :
    (HttpRouter.routeCoreMakeCallback c outside req).Always IsMade fun _ => True := by
  have hpair : ∀ key value : Bytes, IsMade ((WValue.null.set (ascii "value") (.string value)).set
      (ascii "key") (.string key)) := fun key value =>
    ⟨(distinct_set _ _).set _ _, Or.inl ⟨key, by rw [WValue.field?_set, if_pos rfl]⟩⟩
  have herror : ∀ {w : WValue} (text : Bytes), IsMade w → (∃ key, w.field? (ascii "key") =
      some (.string key)) → IsMade (w.set (ascii "error") (.string text)) :=
    fun text hw ⟨key, hkey⟩ => ⟨hw.1.set _ _, Or.inl ⟨key, by
      rw [WValue.field?_set, if_neg (by decide)]
      exact hkey⟩⟩
  refine (always_catchWhat (E := fun _ => True) ?_ fun what => ?_).mono (fun _ h => h)
    fun _ _ => trivial
  · refine Prog.Always.bind (P := fun r => IsMade r.2) ?_ fun r hr => Prog.Always.pure hr
    rw [makePair, hbody]
    refine (always_ofExcept_any _).bind fun key _ => (always_ofExcept_any _).bind fun value _ =>
      (always_ofExcept_any _).bind fun save _ => ?_
    have hkey : ∃ k, (((WValue.null.set (ascii "value") (.string value)).set (ascii "key")
        (.string key)).field? (ascii "key")) = some (.string k) :=
      ⟨key, by rw [WValue.field?_set, if_pos rfl]⟩
    split
    · split
      · refine (always_harmless (always_commitPut c key value)).bind fun ok _ => ?_
        split
        · exact Prog.Always.pure (hpair key value)
        · exact Prog.Always.pure (herror _ (hpair key value) hkey)
      · exact Prog.Always.pure (herror _ (hpair key value) hkey)
    · exact Prog.Always.pure (hpair key value)
  · have hdistinct : (madeBefore outside req.bodyText).set (ascii "error")
        (.string (ascii "runtime error")) |>.Distinct := by
      unfold madeBefore
      rw [hbody]
      dsimp only
      split
      · exact ((distinct_set _ _).set _ _).set _ _
      · exact distinct_set _ _
    exact ⟨hdistinct, Or.inr (by rw [WValue.field?_set, if_pos rfl])⟩

/-- A pair is made of the text of the body: over TCP it is refused. -/
theorem servesAlike_make (hroute : route = ascii "/make") :
    ServesAlike n (dispatch c outside request)
        (HttpRouter.printed (HttpRouter.routeCoreMakeCallback c outside req)) ↔
      IsAnswered c n request ∧ IsAccepted x ∧ load req.bodyText = none := by
  subst hroute
  have hrefused : ∃ refusal, (∀ body, load body = none →
      HttpRouter.printed (catchWhat (do return (← makePair c body outside.uuid).2) fun _ =>
        (madeBefore outside body).set (ascii "error") (.string (ascii "runtime error"))) =
          pure (dump (.string refusal))) := by
    refine ⟨ascii "\x7b\"error\": \"Invalid make body\"\x7d", fun body hnone => ?_⟩
    rw [makePair, hnone]
    rfl
  obtain ⟨refusal, hrefused⟩ := hrefused
  have hdispatch : ∀ r, Request.make request = .ok r → ReadsAlike (ascii "/make") req r →
      dispatch c outside request = pure (dump (.string refusal)) := by
    intro r hmake hreads
    have hcallback := hrefused r.body (by rw [hreads.body]; rfl)
    rw [dispatch_json (routeCoreMakeCallback c outside) hmake hreads rfl rfl,
      routeCoreMakeCallback, hcallback]
    rfl
  have htext : (WValue.string refusal).Distinct := trivial
  have hne : ∀ w : WValue, IsMade w → dump w ≠ dump (.string refusal) ∧ dump w ≠ dispatchError := by
    rintro w ⟨hw, ⟨key, hkey⟩ | herror⟩
    · refine ⟨fun h => ?_, dump_ne_of_other hw hkey (by decide)⟩
      have hfields := map_reread_field? hw htext h (ascii "key")
      rw [hkey] at hfields
      cases hfields
    · refine ⟨fun h => ?_, dump_ne_of_error hw herror (by decide +kernel)⟩
      have hfields := map_reread_field? hw htext h (ascii "error")
      rw [herror] at hfields
      cases hfields
  have hstring : dump (.string refusal) ≠ dispatchError := by
    intro h
    have hload := load_dump (.string refusal)
    rw [h, load_dispatchError] at hload
    cases hload
  refine servesAlike_iff hmirrors hload ?_ (fun r hmake hreads hanswered hnone => ?_)
    fun r hmake hreads hsome => ?_
  · cases hbody : load req.bodyText with
    | none =>
      rw [HttpRouter.routeCoreMakeCallback, hrefused _ hbody]
      exact Prog.Always.pure hstring
    | some v => exact always_printed (always_make hbody) fun w hw => (hne w hw).2
  · refine servesAlike_of_eq hmirrors hload ?_ hanswered
    rw [hdispatch r hmake hreads, HttpRouter.routeCoreMakeCallback, hrefused _ hnone]
  · obtain ⟨v, hv⟩ := Option.ne_none_iff_exists'.mp hsome
    rw [hdispatch r hmake hreads]
    have hmade : (HttpRouter.printed (HttpRouter.routeCoreMakeCallback c outside req)).Always
        (· ≠ dump (.string refusal)) fun _ => True :=
      always_printed (always_make hv) fun w hw => (hne w hw).1
    exact not_servesAlike (P := (· = dump (.string refusal))) (E := fun _ => True)
      (Prog.Always.pure rfl) hmade fun _ h hne => hne h

end

end Routing

end Quarks
