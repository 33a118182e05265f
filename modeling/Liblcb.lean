import Liblcb.BigNum.Runs
import Liblcb.BigNum.Products
import Liblcb.BigNum.DivBounds
import Liblcb.Curve.ProjLaw
import Liblcb.Utils.Base64
import Liblcb.Utils.Base64Spec
import Liblcb.Utils.Base64RoundTrip
import Liblcb.Utils.BtEncode
import Liblcb.Utils.BtEncodeSpec
import Liblcb.Utils.Ini
import Liblcb.Utils.IniRoundTrip
import Liblcb.Proto.Http
import Liblcb.Proto.HttpSpec
import Liblcb.Utils.Reass
import Liblcb.Utils.ReassSound
import Liblcb.Utils.ReassComplete
import Liblcb.Utils.RingBuf
import Liblcb.Utils.RingBufInv
import Liblcb.Utils.RingBufRead
import Liblcb.Proto.Dns
import Liblcb.Proto.DnsNames
import Liblcb.Proto.DnsRoundTrip
import Liblcb.Proto.Radius
import Liblcb.Proto.RadiusAttrs
import Liblcb.Proto.RadiusBuild
import Liblcb.Proto.RadiusClient
import Liblcb.Proto.RadiusFailover
import Liblcb.Utils.Num2Str
import Liblcb.Proto.HttpSnd
import Liblcb.Proto.HttpSndSpec
import Liblcb.Threadpool.Broadcast
import Liblcb.Threadpool.BroadcastInv
import Liblcb.Threadpool.BroadcastDone
import Liblcb.Threadpool.OneByOne
import Liblcb.Threadpool.OneByOneStep
import Liblcb.Threadpool.OneByOneDone
import Liblcb.Threadpool.BsendDone
import Liblcb.Threadpool.ConnectExInv
import Liblcb.Threadpool.TaskIoSpec
import Liblcb.Proto.DnsResolvRun
import Liblcb.Crypto.Gost28147Undo
import Liblcb.Crypto.ChachaStream
import Liblcb.Crypto.Hmac
import Liblcb.BigNum.AddSub
import Liblcb.BigNum.Sqrt
import Liblcb.BigNum.ModExp
import Liblcb.BigNum.Naf
import Liblcb.BigNum.JsfSpec
import Liblcb.BigNum.ModSqrt
import Liblcb.BigNum.Barrett
import Liblcb.BigNum.Binary
import Liblcb.BigNum.Hex
import Liblcb.BigNum.Shift
import Liblcb.BigNum.Gcd
import Liblcb.Utils.FindStreamSpec
import Liblcb.Utils.RingBufSize
import Liblcb.Utils.RingBufGet
import Liblcb.Utils.RingBufDrop
import Liblcb.Utils.IniGen
import Liblcb.Utils.BufLines
import Liblcb.Utils.BufArgs
import Liblcb.Utils.NumText
import Liblcb.Utils.MemReplace
import Liblcb.Utils.XmlCode
import Liblcb.Utils.XmlLookup
import Liblcb.Utils.BtEncodeSafe
import Liblcb.Utils.Asn1Safe
import Liblcb.Utils.Asn1Der
import Liblcb.Utils.IoBufQueue
import Liblcb.Proto.HttpUrl
import Liblcb.Proto.HttpSndPart
import Liblcb.Proto.HttpQueryDel
import Liblcb.Proto.HttpHdrLookup
import Liblcb.Proto.HttpHdrOthers
import Liblcb.Proto.HttpReqTarget
import Liblcb.Net.HostnameList
import Liblcb.Net.HostAddress
import Liblcb.Net.Iovec
import Liblcb.Net.NetMask
import Liblcb.Net.SockAddrText
import Liblcb.Proto.DnsCache
import Liblcb.Proto.DnsZones
import Liblcb.Proto.DnsCodec
import Liblcb.Proto.DnsSafety
import Liblcb.Proto.DnsReadAgree
import Liblcb.Proto.DnsTaskIds
import Liblcb.Proto.RadiusPassword
import Liblcb.BigNum.DigitEgcd
import Liblcb.Proto.RadiusGetSpec
