import LibRest.Lib.System
import LibRest.Lib.Prog
import LibRest.Lib.Pool
import LibRest.Lib.Mutex
import LibRest.Lib.Channel
import LibRest.Lib.Ledger
import LibRest.Lib.Log
import LibRest.Lib.Rely
import LibRest.Lib.Relay
import LibRest.Lib.Progress
import LibRest.Lib.Protocol
import LibRest.Lib.Bits
import LibRest.Lib.Blocks
import LibRest.Lib.Cells
import LibRest.CommonDefs
import LibRest.Encoding
import LibRest.Base64
import LibRest.Sha256
import LibRest.Sha256Object
import LibRest.Curl
import LibRest.Requests
import LibRest.Effects
import LibRest.Alone
import LibRest.History
import LibRest.Rotation
import LibRest.Release
import LibRest.Sharing
import LibRest.Gets
import LibRest.Worker
import LibRest.Handover
import LibRest.Restart
import LibRest.Facade
import LibRest.TearDown
import LibRest.Stopping
import LibRest.Enqueue
import LibRest.Proxy
import LibRest.Construction
import LibRest.Service
import LibRest.Among
import LibRest.Direct
import LibRest.Delivery
import LibRest.Progress
import LibRest.Polling
import LibRest.Blocking
import LibRest.Holding
import LibRest.Misuse
import LibRest.Accounts
