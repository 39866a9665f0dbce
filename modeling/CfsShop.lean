import CfsShop.Lib.Table
import CfsShop.Beans
import CfsShop.Lib.Run
import CfsShop.Mapper
import CfsShop.OrderService
import CfsShop.Receiver
import CfsShop.Ledger
import CfsShop.OnePurchase
import CfsShop.AllOrNothing
import CfsShop.Lib.Allotment
import CfsShop.Delivery
import CfsShop.Batching
import CfsShop.NoLostSale
import CfsShop.AdminMapper
import CfsShop.BloomFileter
import CfsShop.ShiroRealm
import CfsShop.SysServices
import CfsShop.Departments
import CfsShop.Controller
import CfsShop.Refused
import CfsShop.Admission
import CfsShop.OverMark
import CfsShop.Accepted
import CfsShop.GoodsController
import CfsShop.Lib.Decimal
import CfsShop.UserService
import CfsShop.System
import CfsShop.OrderChain
import CfsShop.Provenance
import CfsShop.Sessions
import CfsShop.Buyers
import CfsShop.Consumable
import CfsShop.Restart
import CfsShop.SaleWindow
import CfsShop.Lib.Binary64
import CfsShop.GoodsOver
import CfsShop.UseRate
import CfsShop.CountDown
import CfsShop.UserLookup
import CfsShop.UserLogin
import CfsShop.Lib.Sql
import CfsShop.KeywordSearch
import CfsShop.BloomHash
import CfsShop.UtilObject
import CfsShop.Lib.Buckets
import CfsShop.Lib.Cursor
import CfsShop.Redis.Dict
import CfsShop.Redis.DictGrowth
import CfsShop.Redis.Glob
import CfsShop.Redis.Util
import CfsShop.Lib.Triple
import CfsShop.Redis.Db
import CfsShop.Redis.Keyspace
import CfsShop.Redis.ScanKeys
import CfsShop.Redis.History
import CfsShop.ShiroRedis.Apart
import CfsShop.ShiroRedis.Expiry
