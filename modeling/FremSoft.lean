import FremSoft.Delivery
import FremSoft.DueOrder
import FremSoft.Callbacks
import FremSoft.Cancel
import FremSoft.Ownership
import FremSoft.MisreadMember
import FremSoft.HeaderAgreement
import FremSoft.PrimitiveTypes
import FremSoft.LinkIsolation
import FremSoft.HeapQueue
import FremSoft.ActivityTimeline
import FremSoft.StaleCallback
import FremSoft.Quiescence
import FremSoft.ItemProvenance
import FremSoft.Startup
import FremSoft.LoadSafe
import FremSoft.CallbackDrain
import FremSoft.HexBytes
import FremSoft.DelayTrip
import FremSoft.TornLog
import FremSoft.SsaCard
import FremSoft.CanIdGrammar
import FremSoft.LoadBound
import FremSoft.JsmnCut
import FremSoft.Reformat
import FremSoft.SessionReplay
import FremSoft.ItemBlob
import FremSoft.SchedulerInterleaving
import FremSoft.LogWriters
import FremSoft.Forwarders
