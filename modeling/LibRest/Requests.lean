import LibRest.Curl
import LibRest.Encoding

/-!
# The requests of `CurlHttpWrapper`

`Post`, `Put`, `PostPollingData`, `GetData` and `UpdateTLSInfo` (`CurlHttpWrapper.cpp`), as programs
over `Op`. Logging, `curl_easy_getinfo` and the texts of errors are left out: they set nothing that
a request reads. `throw MyException()` goes to the `catch` of the same function, so it is an early
return of what the `catch` and the code after it do.

`Post`, `Put` and `PostPollingData` are three copies of one sequence (`sendBody`): they differ in
the method, in where the url and the content come from, and in the lock of `PostPollingData`.

A text option takes `c_str()`, so it gets the text up to its first zero byte (`cStr`). The body has
its size set before, and is sent in full. The method and the header lines have no zero byte.
-/

namespace LibRest

open Lib

namespace CurlHttpWrapper

def setopt (h : Option EasyId) (o : CurlOpt) (a : Arg) : Request CurlCode :=
  Prog.call (Op.setopt h o a)

def perform (h : Option EasyId) : Request CurlCode := Prog.call (Op.perform h)

def slistAppend (l : Option SlistId) (s : Str) : Request (Option SlistId) :=
  Prog.call (Op.slistAppend l s)

def clear (b : Buffer) : Request Unit := Prog.call (Op.clear b)

/-- The lambda `FreeHeader`. It sets only its own copy of the pointer to null. -/
def freeHeader (headers : Option SlistId) : Request Unit :=
  match headers with
  | some l => Prog.call (Op.slistFreeAll l)
  | none => pure ()

/-! ## Headers -/

def sstm : Str := str "0"
def key : Str := str ""
def token : Str := key ++ sstm

/-- The first four header lines, in the order in which `addSecurityHeaders` appends them. -/
def cacheControl : Str := str "cache-control: no-cache"
def data1 : Str := str "sstm: " ++ base64Encode sstm
def data2 : Str := str "public_key: " ++ base64Encode key
def data3 : Str := str "token: " ++ sha256 token

/-- The content type line: the `switch` on the type, where every value but one is JSON. -/
def contentTypeLine (dataType : Int) : Str :=
  if dataType = RestContentType.typeWwwForm.toInt then
    str "content-type: application/x-www-form-urlencoded"
  else
    str "content-type: application/json"

/-- `CurlHttpWrapper::addSecurityHeaders`. Each append overwrites the head of the list, also with
the null pointer of a failed append. -/
def addSecurityHeaders (dataType : Int) : Request (Option SlistId) := do
  let headers ← slistAppend none cacheControl
  let headers ← slistAppend headers data2
  let headers ← slistAppend headers data1
  let headers ← slistAppend headers data3
  slistAppend headers (contentTypeLine dataType)

/-- The lines of a complete list. -/
def securityHeaders (dataType : Int) : List Str :=
  [cacheControl, data2, data1, data3, contentTypeLine dataType]

/-! ## Requests with a body -/

/-- The `catch` blocks: free the headers; the status is still `FAILURE`. -/
def catchRequest (headers : Option SlistId) : Request HttpStatus := do
  freeHeader headers
  return .failure

/-- The common code of `Post`, `Put` and `PostPollingData`, from the clearing of `strHttpStatus` to
the end. The result of the first `setopt` is not checked. -/
def sendBody (method url content : Str) (type : RestContentType) : Request HttpStatus := do
  clear .strHttpStatus
  let _ ← setopt (some mCurl) .errorBuffer .errbuf
  let res ← setopt (some mCurl) .url (.text (cStr url))
  if res ≠ .ok then
    return ← catchRequest none
  let headers ← addSecurityHeaders type.toInt
  let res ← setopt (some mCurl) .httpHeader (.slist headers)
  if res ≠ .ok then
    return ← catchRequest headers
  let res ← setopt (some mCurl) .customRequest (.text method)
  if res ≠ .ok then
    return ← catchRequest headers
  let res ← setopt (some mCurl) .postFieldSize (.long content.length)
  if res ≠ .ok then
    return ← catchRequest headers
  let res ← setopt (some mCurl) .postFields (.text content)
  if res ≠ .ok then
    return ← catchRequest headers
  let res ← perform (some mCurl)
  if res ≠ .ok then
    return ← catchRequest headers
  freeHeader headers
  return .success

/-- `CurlHttpWrapper::Post`. -/
def post (url : Str) (restData : RestData) : Request HttpStatus :=
  sendBody (str "POST") url restData.getContent restData.getType

/-- `CurlHttpWrapper::Put`. -/
def put (url : Str) (restData : RestData) : Request HttpStatus :=
  sendBody (str "PUT") url restData.getContent restData.getType

/-- `CurlHttpWrapper::PostPollingData`. The lock guard is released on return. -/
def postPollingData (deviceUri : Str) (data : RestData) : Request HttpStatus := do
  Prog.call Op.lockPolling
  let status ← sendBody (str "POST") deviceUri data.getContent data.getType
  Prog.call Op.unlockPolling
  return status

/-! ## GET -/

/-- `CURLUSESSL_ALL`. -/
def curlUseSslAll : Nat := 3

/-- The lambda `cleanCurl` of `GetData`. It sets only its own copy of the pointer to null. -/
def cleanCurl (ptr : Option EasyId) : Request Unit :=
  match ptr with
  | some h => Prog.call (Op.cleanup h)
  | none => pure ()

/-- The `catch` blocks of `GetData`. -/
def catchGet (curlPtr : Option EasyId) : Request HttpStatus := do
  cleanCurl curlPtr
  return .failure

/-- The `try` block of `GetData`, with its `catch` blocks. The results of the first three `setopt`
are not checked. -/
def tryGet (curlPtr : Option EasyId) (url : Str) : Request HttpStatus := do
  let _ ← setopt curlPtr .writeFunction (.callback .getWriteCallback)
  let _ ← setopt curlPtr .writeData (.buffer .strHttpGetData)
  let _ ← setopt curlPtr .errorBuffer .errbuf
  let res ← setopt curlPtr .sslVerifyPeer (.long 1)
  if res ≠ .ok then
    return ← catchGet curlPtr
  let res ← setopt curlPtr .url (.text (cStr url))
  if res ≠ .ok then
    return ← catchGet curlPtr
  let res ← setopt curlPtr .useSsl (.long curlUseSslAll)
  if res ≠ .ok then
    return ← catchGet curlPtr
  let res ← setopt curlPtr .httpGet (.long 1)
  if res ≠ .ok then
    return ← catchGet curlPtr
  let res ← perform curlPtr
  if res ≠ .ok then
    return ← catchGet curlPtr
  return .success

/-- `CurlHttpWrapper::GetData`: the status, and the content of the caller's `data`. -/
def getData (deviceUri : Str) : Request (HttpStatus × Str) := do
  clear .strHttpGetData
  let curlPtr ← Prog.call Op.easyInit
  let status ← tryGet curlPtr deviceUri
  let data ← Prog.call (Op.read .strHttpGetData)
  cleanCurl curlPtr
  return (status, data)

/-- `CurlHttpWrapper::GetDeviceData`. -/
def getDeviceData (deviceUri : Str) : Request (HttpStatus × Str) := getData deviceUri

/-! ## TLS credentials -/

/-- `CurlHttpWrapper::UpdateTLSInfo`. The result of the first `setopt` is not checked. -/
def updateTLSInfo : Request HttpStatus := do
  let cert ← Prog.call Op.loadCert
  let _ ← setopt (some mCurl) .errorBuffer .errbuf
  let res ← setopt (some mCurl) .sslCertType (.text (cStr cert.strKeyType))
  if res ≠ .ok then
    return .failure
  let res ← setopt (some mCurl) .sslCert (.text (cStr cert.strCertificate))
  if res ≠ .ok then
    return .failure
  let res ← setopt (some mCurl) .keyPasswd (.text (cStr cert.strPassword))
  if res ≠ .ok then
    return .failure
  let res ← setopt (some mCurl) .sslKeyType (.text (cStr cert.strKeyType))
  if res ≠ .ok then
    return .failure
  let res ← setopt (some mCurl) .sslKey (.text (cStr cert.strKeyName))
  if res ≠ .ok then
    return .failure
  let res ← setopt (some mCurl) .caInfo (.text (cStr cert.strCAcertificate))
  if res ≠ .ok then
    return .failure
  let res ← setopt (some mCurl) .sslVerifyPeer (.long 1)
  if res ≠ .ok then
    return .failure
  return .success

/-- `CurlHttpWrapper::SetCertificateAttributes`. -/
def setCertificateAttributes (cert : Certificate) : Request HttpStatus := do
  Prog.call (Op.storeCert cert)
  updateTLSInfo

/-- The `curl_easy_setopt` calls of `CurlHttpWrapper::Start`, whose results are not checked. -/
def startOptions : Request Unit := do
  let _ ← setopt (some mCurl) .writeFunction (.callback .writeCallback)
  let _ ← setopt (some mCurl) .writeData (.buffer .strHttpStatus)
  return ()

/-! ## The operations of a request -/

/-- A `curl_easy_setopt` whose result is checked, with `c` for a failure. -/
theorem all_checked {α : Type} {P : Op → Prop} {h : Option EasyId} {o : CurlOpt} {a : Arg}
    {c k : Request α} (ho : P (.setopt h o a)) (hc : c.All P) (hk : k.All P) :
    (setopt h o a >>= fun res => if res ≠ .ok then c else k).All P := by
  refine ⟨ho, fun (r : CurlCode) => ?_⟩
  show (if r ≠ .ok then c else k).All P
  split
  · exact hc
  · exact hk

end CurlHttpWrapper

end LibRest
