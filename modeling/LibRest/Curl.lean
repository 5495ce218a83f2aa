import Mathlib.Logic.Function.Basic
import LibRest.CommonDefs
import LibRest.Lib.Prog

/-!
# libcurl, as the wrapper uses it

The wrapper's requests are programs over the operations `Op`: the libcurl calls, and the members of
`CurlHttpWrapper` that several calls share. This file gives the operations their meaning on a
`World`.

- **Handles.** An easy handle is a map from options to the value set last and the call that set
  it. A successful `curl_easy_setopt` records its option; a failed one changes nothing.
- **Header lists.** A list is a token; `curl_slist_append` makes one or extends one. If it fails, it
  returns null and the list it was given stays allocated.
- **`curl_easy_perform`.** It hands the response to the write callback that the handle has recorded,
  chunk by chunk, and returns a code. Its options and header lines at that time are kept in
  `World.performs`.
- **Choices.** `Choice` settles what libcurl may do: a call succeeds or fails, which chunks arrive,
  which code a transfer ends with.

The calls are tagged with a type `ι`, so that the meaning is the same for one call at a time and
for calls of many threads. `cleanups`, `frees` and `misuse` count releases, and uses of what is
released.
-/

namespace LibRest

open Lib

/-- `CURLcode`: `CURLE_OK`, or the code of an error. -/
inductive CurlCode where
  | ok
  | error (n : Nat)
  deriving DecidableEq, Repr

/-- The options that the wrapper sets. -/
inductive CurlOpt where
  | errorBuffer
  | url
  | httpHeader
  | customRequest
  | postFieldSize
  | postFields
  | writeFunction
  | writeData
  | sslVerifyPeer
  | useSsl
  | httpGet
  | sslCertType
  | sslCert
  | keyPasswd
  | sslKeyType
  | sslKey
  | caInfo
  deriving DecidableEq, Repr

abbrev EasyId := Nat
abbrev SlistId := Nat

/-- The handle that `mCurl` owns. -/
def mCurl : EasyId := 0

/-- The members that a write callback appends to. -/
inductive Buffer where
  | strHttpStatus
  | strHttpGetData
  deriving DecidableEq, Repr

/-- The write callbacks of the wrapper. -/
inductive Callback where
  | writeCallback
  | getWriteCallback
  deriving DecidableEq, Repr

/-- The value of an option: the text of a string pointer, a `long`, a header list, the error buffer
of the call, a callback, or the string that a callback appends to. -/
inductive Arg where
  | text (s : Str)
  | long (n : Nat)
  | slist (l : Option SlistId)
  | errbuf
  | callback (f : Callback)
  | buffer (b : Buffer)
  deriving DecidableEq, Repr

/-- The operations of a request. -/
inductive Op where
  | easyInit
  | setopt (h : Option EasyId) (o : CurlOpt) (a : Arg)
  | perform (h : Option EasyId)
  | cleanup (h : EasyId)
  | slistAppend (l : Option SlistId) (s : Str)
  | slistFreeAll (l : SlistId)
  | clear (b : Buffer)
  | read (b : Buffer)
  | storeCert (c : Certificate)
  | loadCert
  /-- Lock and unlock `mPollingMutex`. -/
  | lockPolling
  | unlockPolling

/-- The result of an operation. -/
def Op.Res : Op → Type
  | .easyInit => Option EasyId
  | .setopt .. => CurlCode
  | .perform _ => CurlCode
  | .cleanup _ => Unit
  | .slistAppend .. => Option SlistId
  | .slistFreeAll _ => Unit
  | .clear _ => Unit
  | .read _ => Str
  | .storeCert _ => Unit
  | .loadCert => Certificate
  | .lockPolling => Unit
  | .unlockPolling => Unit

/-- A request, or a part of one. -/
abbrev Request (α : Type) := Prog Op.Res α

/-! ## The state -/

/-- An easy handle: its options with the calls that set them, and how often it was passed to
`curl_easy_cleanup`. -/
structure Easy (ι : Type) where
  opts : CurlOpt → Option (Arg × ι)
  cleanups : Nat

/-- A new handle: no option is set. -/
def Easy.new {ι : Type} : Easy ι := ⟨fun _ => none, 0⟩

/-- A header list, and how often it was passed to `curl_slist_free_all`. -/
structure Slist where
  lines : List Str
  frees : Nat

/-- A `curl_easy_perform`: who called it, the options and header lines that it used, the chunks of
its last step and the code it returned. -/
structure Performed (ι : Type) where
  call : ι
  easy : EasyId
  opts : CurlOpt → Option (Arg × ι)
  headers : List Str
  chunks : List Str
  code : CurlCode

/-- The state that requests share: libcurl's objects and the wrapper's members. `delivered` has the
chunks that a write callback got for each call. -/
structure World (ι : Type) where
  easy : EasyId → Easy ι
  easyCount : Nat
  slist : SlistId → Slist
  slistCount : Nat
  buffer : Buffer → Str
  cert : Certificate
  mPollingMutex : Option ι
  performs : List (Performed ι)
  delivered : ι → List Str
  misuse : Nat

namespace World

variable {ι : Type}

/-- After the constructor: one handle, `mCurl`. -/
def init : World ι where
  easy _ := .new
  easyCount := 1
  slist _ := ⟨[], 0⟩
  slistCount := 0
  buffer _ := []
  cert := .empty
  mPollingMutex := none
  performs := []
  delivered _ := []
  misuse := 0

/-- The options of a handle. -/
def opts (w : World ι) (h : EasyId) : CurlOpt → Option (Arg × ι) := (w.easy h).opts

/-- A use of the handle `h`. -/
def useEasy (w : World ι) (h : EasyId) : World ι :=
  if (w.easy h).cleanups = 0 then w else { w with misuse := w.misuse + 1 }

/-- A use of the header list `l`. -/
def useSlist (w : World ι) (l : SlistId) : World ι :=
  if (w.slist l).frees = 0 then w else { w with misuse := w.misuse + 1 }

/-- A use of a value: `curl_easy_setopt` gets the header list itself. -/
def useArg (w : World ι) : Arg → World ι
  | .slist (some l) => w.useSlist l
  | _ => w

/-- `curl_easy_setopt` of call `i` that succeeds. -/
def record (w : World ι) (i : ι) (h : EasyId) (o : CurlOpt) (a : Arg) : World ι :=
  let e := { w.easy h with opts := Function.update (w.opts h) o (some (a, i)) }
  { w with easy := Function.update w.easy h e }

/-- The lines of the header list that a handle has recorded. -/
def headerLines (w : World ι) (h : EasyId) : List Str :=
  match w.opts h .httpHeader with
  | some (.slist (some l), _) => (w.slist l).lines
  | _ => []

/-- `WriteCallback` and `GetWriteCallback`: append the contents to the string at `userp`. -/
def writeCallback (contents userp : Str) : Str := userp ++ contents

/-- The record of a `curl_easy_perform` on `h`. -/
def performed (w : World ι) (i : ι) (h : EasyId) (chunks : List Str) (code : CurlCode) :
    Performed ι := ⟨i, h, w.opts h, w.headerLines h, chunks, code⟩

variable [DecidableEq ι]

/-- One chunk of the response on the handle `h`, for call `i`. Without a recorded callback and
string the chunk goes to libcurl's default target, which is no member of the wrapper. -/
def deliver (i : ι) (h : EasyId) (w : World ι) (chunk : Str) : World ι :=
  match w.opts h .writeFunction, w.opts h .writeData with
  | some (.callback _, _), some (.buffer b, _) =>
    { w with
      buffer := Function.update w.buffer b (writeCallback chunk (w.buffer b))
      delivered := Function.update w.delivered i (w.delivered i ++ [chunk]) }
  | _, _ => w

/-- The header list that `h` has recorded is used by a perform. -/
def useHeader (w : World ι) (h : EasyId) : World ι :=
  match w.opts h .httpHeader with
  | some (.slist (some l), _) => w.useSlist l
  | _ => w

/-- The last step of a `curl_easy_perform`: the last chunks, and its code. -/
def perform (w : World ι) (i : ι) (h : EasyId) (chunks : List Str) (code : CurlCode) : World ι :=
  chunks.foldl (deliver i h) { w with performs := w.performs ++ [w.performed i h chunks code] }

/-- A new handle. -/
def newEasy (w : World ι) : World ι :=
  { w with easy := Function.update w.easy w.easyCount .new, easyCount := w.easyCount + 1 }

/-- `curl_easy_cleanup`. -/
def cleanup (w : World ι) (h : EasyId) : World ι :=
  let e := { w.easy h with cleanups := (w.easy h).cleanups + 1 }
  { w with easy := Function.update w.easy h e }

/-- A new header list with one line. -/
def newSlist (w : World ι) (s : Str) : World ι :=
  { w with slist := Function.update w.slist w.slistCount ⟨[s], 0⟩, slistCount := w.slistCount + 1 }

/-- One more line of the header list `l`. -/
def append (w : World ι) (l : SlistId) (s : Str) : World ι :=
  let e := { w.slist l with lines := (w.slist l).lines ++ [s] }
  { w with slist := Function.update w.slist l e }

/-- `curl_slist_free_all`. -/
def freeAll (w : World ι) (l : SlistId) : World ι :=
  let e := { w.slist l with frees := (w.slist l).frees + 1 }
  { w with slist := Function.update w.slist l e }

end World

/-! ## The meaning of the operations -/

/-- What libcurl may do in one step of a call: the call succeeds, it fails, a chunk arrives and the
transfer goes on, or the last chunks arrive and the transfer ends with a code. -/
inductive Choice where
  | ok
  | fail (n : Nat)
  | chunk (b : Str)
  | transfer (chunks : List Str) (code : CurlCode)
  deriving DecidableEq, Repr

/-- The operations, as call `i` makes them. `setopt` and `perform` fail on a null handle. -/
def handle {ι : Type} [DecidableEq ι] (i : ι) : Handler Op.Res (World ι) Choice
  | .easyInit, w, .ok => some (some (some w.easyCount), w.newEasy)
  | .easyInit, w, .fail _ => some (some none, w)
  | .setopt (some h) o a, w, .ok => some (some .ok, ((w.useEasy h).useArg a).record i h o a)
  | .setopt (some h) _ a, w, .fail n => some (some (.error n), (w.useEasy h).useArg a)
  | .setopt none _ _, w, .fail n => some (some (.error n), w)
  | .perform (some h), w, .chunk b => some (none, ((w.useEasy h).useHeader h).deliver i h b)
  | .perform (some h), w, .transfer chunks code =>
    some (some code, ((w.useEasy h).useHeader h).perform i h chunks code)
  | .perform none, w, .fail n => some (some (.error n), w)
  | .cleanup h, w, .ok => some (some (), (w.useEasy h).cleanup h)
  | .slistAppend none s, w, .ok => some (some (some w.slistCount), w.newSlist s)
  | .slistAppend (some l) s, w, .ok => some (some (some l), (w.useSlist l).append l s)
  | .slistAppend none _, w, .fail _ => some (some none, w)
  | .slistAppend (some l) _, w, .fail _ => some (some none, w.useSlist l)
  | .slistFreeAll l, w, .ok => some (some (), (w.useSlist l).freeAll l)
  | .clear b, w, .ok => some (some (), { w with buffer := Function.update w.buffer b [] })
  | .read b, w, .ok => some (some (w.buffer b), w)
  | .storeCert c, w, .ok => some (some (), { w with cert := c })
  | .loadCert, w, .ok => some (some w.cert, w)
  | .lockPolling, w, .ok =>
    if w.mPollingMutex.isNone then some (some (), { w with mPollingMutex := some i }) else none
  | .unlockPolling, w, .ok => some (some (), { w with mPollingMutex := none })
  | _, _, _ => none

end LibRest
