import PureSsh.Channel.Step

/-! Errors of the channel layer change nothing. -/

namespace PureSsh.Channel
open Lib Reader Writer ConnectionState Proc

/-- The same connection: the map from ids to channels is the same, and so are the other fields.
The order in which a map keeps its entries is not part of it. -/
structure ConnectionState.Same (s t : ConnectionState) : Prop where
  channels : ∀ id, s.channel id=t.channel id
  nextLocalId : s.nextLocalId=t.nextLocalId
  defaultWindow : s.defaultWindow=t.defaultWindow
  defaultMaxPacket : s.defaultMaxPacket=t.defaultMaxPacket
  maxChannels : s.maxChannels=t.maxChannels

theorem ConnectionState.Same.refl (s : ConnectionState) : s.Same s :=
  ⟨fun _ => rfl,rfl,rfl,rfl,rfl⟩

/- `reject_open` step by step: the entry is taken out of the map before it is looked at, and put
   back if the open was confirmed. -/
def ConnectionState.rejectOpenTaken (localId reason : UInt32) (description language : Str) :
    Conn Bytes := do
  let s ← get
  let ch ← okOr .badChannelState (s.channel localId)
  modify <| remove localId
  if ch.openConfirmed then do
    modify <| put localId ch
    fail .badChannelState
  else return msgChannelOpenFailure::(be32 ch.remoteId++be32 reason ++
    writeString description++writeString language)

theorem same_putBack {s : ConnectionState} {id : UInt32} {ch : ChannelState}
    (hch : s.channel id=some ch) : (put id ch (remove id s)).Same s := by
  refine ⟨fun id' => ?_,rfl,rfl,rfl,rfl⟩
  by_cases hid : id'=id
  · rw [hid,channel_put_self,hch]
  · rw [channel_put_ne _ _ _ _ hid,channel_remove_ne _ _ _ hid]

/-- Taking the entry out first makes no difference to the answer or to the map. -/
theorem rejectOpenTaken_eq (s : ConnectionState) (id reason : UInt32) (description language : Str) :
    (rejectOpenTaken id reason description language s).1 =
        (rejectOpen id reason description language s).1 ∧
      (rejectOpenTaken id reason description language s).2.Same
        (rejectOpen id reason description language s).2 := by
  rw [rejectOpenTaken,rejectOpen,getMut,get_bind,bind_apply,bind_apply,get_bind]
  cases hch : s.channel id with
  | none => exact ⟨rfl,.refl s⟩
  | some ch =>
    simp only [okOr,modify_bind]
    split
    · exact ⟨rfl,same_putBack hch⟩
    · exact ⟨rfl,.refl _⟩

/-- A call that fails and a packet that is refused leave the whole connection as it was. -/
theorem errors_change_nothing (s s' : ConnectionState) (e : Error) :
    (∀ c, execCall c s=(.error e,s') → s'=s) ∧
      (∀ payload, onPacket payload s=(.error e,s') → s'=s) ∧ ∀ id reason description language,
        rejectOpenTaken id reason description language s=(.error e,s') → s'.Same s := by
  refine ⟨fun c h => (execCall_settles c).error h,fun payload h => (onPacket_settles payload).error h,
    fun id reason description language h => ?_⟩
  obtain ⟨hresult,hsame⟩ := rejectOpenTaken_eq s id reason description language
  rw [h] at hresult hsame
  have hsettles : Proc.Settles (rejectOpen id reason description language) s fun _ _ => True :=
    getMut_settles fun _ _ => .check fun _ => .modify_pure trivial
  have hs : (rejectOpen id reason description language s).2=s :=
    hsettles.error (Prod.ext hresult.symm rfl)
  rwa [hs] at hsame

def confirmedSession : ConnectionState :=
  put 0 { outbound .new 0 .session with openConfirmed := true } .new

/-- A confirmed channel cannot be rejected any more, and stays. -/
theorem errors_change_nothing_confirmed : ∃ s',
    rejectOpenTaken 0 1 [] [] confirmedSession=(.error .badChannelState,s') ∧
      s'.Same confirmedSession := by
  refine ⟨_,rfl,?_⟩
  exact (errors_change_nothing confirmedSession _ .badChannelState).2.2 0 1 [] [] rfl

end PureSsh.Channel
