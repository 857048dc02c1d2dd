import OpenSer.DbUt
import OpenSer.Dbtext
import OpenSer.Dialog.DlgId
import OpenSer.Dialog.DlgLifetime
import OpenSer.Dialog.DlgMatch
import OpenSer.Dialog.DlgStats
import OpenSer.Dialog.LegInfo
import OpenSer.Dispatcher
import OpenSer.LumpBranch
import OpenSer.Mem.FMallocData
import OpenSer.Mem.FMallocStat
import OpenSer.Naptr
import OpenSer.Parser.HdrExact
import OpenSer.Parser.ParseContent
import OpenSer.Parser.ToExact
import OpenSer.Permissions
import OpenSer.Registrar.BindingOrder
import OpenSer.Registrar.CheckContacts
import OpenSer.Registrar.Expiry
import OpenSer.Registrar.Received
import OpenSer.Rr.RouteParam
import OpenSer.Rr.RrParams
import OpenSer.StrCommon
import OpenSer.Tm.BranchId
import OpenSer.Tm.CancelOnce
import OpenSer.Tm.Completion
import OpenSer.Tm.Deletion
import OpenSer.Tm.TimerListInv
import OpenSer.Transformations
import OpenSer.UacFrom
import OpenSer.Usrloc.DbSync
import OpenSer.XmlrpcUsrloc
